import LoxLang.Proofs.Lexical.Tiling
import LoxLang.Proofs.Tree.Relabelling

/-!
# Scanning one source behind another

A tile in which no text and no comment is left open ends where a newline comes behind its source as
it ends where nothing comes behind it. So a source without such tiles, a newline and another source
have the tiles of the two, with the newline between them, and the items of the two but for the lines
of the second one (`scan_joined`).
-/

namespace LoxLang

namespace Tile

section

variable {b c : UInt8} {rest more after : List UInt8} {p : UInt8 → Bool}

theorem countWhile_append (h : p c = false ∨ countWhile p rest < rest.length) :
    countWhile p (rest ++ c :: after) = countWhile p rest := by
  induction rest with
  | nil => simpa [countWhile] using h
  | cons a rest ih =>
    simp only [List.cons_append, countWhile]
    split
    · next ha =>
      rw [ih]
      simpa [countWhile, ha] using h
    · rfl

/-- What a blank byte does not belong to. -/
theorem of_isBlankByte (h : isBlankByte c = true) :
    isDigit c = false ∧ isWordByte c = false ∧ startsTile c = true ∧ c ≠ byte '=' ∧
      c ≠ byte '/' ∧ c ≠ byte '*' ∧ c ≠ byte '.' := by
  unfold isBlankByte at h
  simp only [Bool.or_eq_true, beq_iff_eq] at h
  rcases h with ((rfl | rfl) | rfl) | rfl <;> decide

theorem numberLength_append (hc : isBlankByte c = true) :
    numberLength (rest ++ c :: after) = numberLength rest := by
  obtain ⟨hdigit, -, -, -, -, -, hpoint⟩ := of_isBlankByte hc
  have hcount : ∀ rest, countWhile isDigit (rest ++ c :: after) = countWhile isDigit rest :=
    fun rest => countWhile_append (.inl hdigit)
  unfold numberLength
  simp only [hcount, List.drop_append_of_le_length countWhile_le]
  match hdrop : rest.drop (countWhile isDigit rest) with
  | [] =>
    cases after with
    | nil => rfl
    | cons digit more => simp [hpoint]
  | [point] => simp [hdigit]
  | point :: digit :: more =>
    simp only [List.cons_append, hcount]

theorem commentLength?_append {length : Nat} (h : commentLength? rest = some length) :
    commentLength? (rest ++ more) = some length := by
  induction rest generalizing length with
  | nil => cases h
  | cons a rest ih =>
    cases rest with
    | nil => simp [commentLength?] at h
    | cons a' rest =>
      have hhead : (a' :: (rest ++ more)).head? = (a' :: rest).head? := rfl
      rw [commentLength?] at h
      rw [List.cons_append, List.cons_append, commentLength?, hhead]
      by_cases hend : (a == byte '*' && (a' :: rest).head? == some (byte '/')) = true
      · rwa [if_pos hend] at h ⊢
      · rw [if_neg hend] at h ⊢
        obtain ⟨length, hlength, rfl⟩ := Option.map_eq_some_iff.mp h
        have hrest := ih hlength
        rw [List.cons_append] at hrest
        rw [hrest]
        rfl

theorem commentLength?_le {length : Nat} (h : commentLength? rest = some length) :
    length ≤ rest.length := by
  induction rest generalizing length with
  | nil => cases h
  | cons a rest ih =>
    unfold commentLength? at h
    split at h
    · next hend =>
      cases h
      cases rest with
      | nil => simp at hend
      | cons a' rest => simp
    · obtain ⟨length, hlength, rfl⟩ := Option.map_eq_some_iff.mp h
      exact Nat.succ_le_succ (ih hlength)

/-- A text or a comment that has been begun has come to its end. -/
def Content.Ended (content : Content) : Prop :=
  content ≠ .fault .unterminatedText ∧ content ≠ .fault .unterminatedComment

theorem classifySymbol_append (hc : isBlankByte c = true) (symbol : Symbol) :
    classifySymbol symbol (rest ++ c :: after) = classifySymbol symbol rest := by
  obtain ⟨-, -, -, hequal, -⟩ := of_isBlankByte hc
  unfold classifySymbol
  cases rest with
  | nil => simp [hequal]
  | cons next rest => rfl

theorem classifySlash_append (hc : isBlankByte c = true)
    (hline : c = byte '\n' ∨ (classifySlash rest).content ≠ .skipped)
    (h : (classifySlash rest).content.Ended) :
    classifySlash (rest ++ c :: after) = classifySlash rest := by
  obtain ⟨-, -, -, -, hslash, hstar, -⟩ := of_isBlankByte hc
  cases rest with
  | nil => simp [classifySlash, hslash, hstar]
  | cons next rest =>
    simp only [classifySlash, List.cons_append] at h hline ⊢
    by_cases hnext : (next == byte '/') = true
    · rw [if_pos hnext] at hline
      obtain rfl := hline.resolve_right fun hne => hne rfl
      rw [if_pos hnext, if_pos hnext, ← List.cons_append, countWhile_append (.inl rfl)]
    · rw [if_neg hnext] at h
      rw [if_neg hnext, if_neg hnext]
      by_cases hblock : (next == byte '*') = true
      · rw [if_pos hblock] at h
        rw [if_pos hblock, if_pos hblock]
        cases hlength : commentLength? rest with
        | none =>
          rw [hlength] at h
          exact absurd rfl h.2
        | some length =>
          simp only [commentLength?_append hlength,
            List.take_append_of_le_length (commentLength?_le hlength)]
      · rw [if_neg hblock, if_neg hblock]

theorem classifyText_append {quote : Quote} (h : (classifyText quote rest).content.Ended) :
    classifyText quote (rest ++ c :: after) = classifyText quote rest := by
  unfold classifyText at h ⊢
  by_cases hends : countWhile (· != byte quote.char) rest < rest.length
  · simp only [countWhile_append (.inr hends), List.length_append,
      List.take_append_of_le_length countWhile_le]
    rw [if_pos hends, if_pos (by omega)]
  · simp only [if_neg hends] at h
    exact absurd rfl h.1

/-- A tile in which nothing is left open is the same if a blank comes behind the source, which has
to be a newline where the tile is skipped: nothing else ends a comment to the end of the line. -/
theorem classify_append (hc : isBlankByte c = true)
    (hline : c = byte '\n' ∨ (classify b rest).content ≠ .skipped)
    (h : (classify b rest).content.Ended) :
    classify b (rest ++ c :: after) = classify b rest := by
  obtain ⟨-, hword, hstarts, -⟩ := of_isBlankByte hc
  -- The blank ends whatever the first byte begins: it continues nothing but a text or a comment.
  unfold classify at h hline ⊢
  split
  · rfl
  next hblank =>
  rw [if_neg hblank] at h hline
  split
  · simp only [numberLength_append hc, List.take_append_of_le_length numberLength_le]
  next hdigit =>
  rw [if_neg hdigit] at h hline
  split
  · have hcount : countWhile isWordByte (rest ++ c :: after) = countWhile isWordByte rest :=
      countWhile_append (.inl hword)
    simp only [hcount, List.take_append_of_le_length countWhile_le]
  next hletter =>
  rw [if_neg hletter] at h hline
  cases hquote : quote? b with
  | some quote =>
    rw [hquote] at h
    exact classifyText_append h
  | none =>
    rw [hquote] at h hline
    cases hsymbol : symbol? b with
    | none =>
      have hcount : countWhile (fun c => !startsTile c) (rest ++ c :: after) =
          countWhile (fun c => !startsTile c) rest := countWhile_append (.inl (by simp [hstarts]))
      simp only [hcount, List.take_append_of_le_length countWhile_le]
    | some symbol =>
      rw [hsymbol] at h hline
      cases symbol
      case slash => exact classifySlash_append hc hline h
      all_goals exact classifySymbol_append hc _

theorem classifySymbol_le (symbol : Symbol) : (classifySymbol symbol rest).length ≤ rest.length := by
  unfold classifySymbol
  split
  · cases rest with
    | nil => exact Nat.le_refl 0
    | cons next rest => split <;> simp
  · exact Nat.zero_le _

theorem classifySlash_le : (classifySlash rest).length ≤ rest.length := by
  cases rest with
  | nil => exact Nat.le_refl 0
  | cons next rest =>
    simp only [classifySlash]
    split
    · exact countWhile_le
    split
    · cases hlength : commentLength? rest with
      | none => exact Nat.le_refl _
      | some length => exact Nat.succ_le_succ (commentLength?_le hlength)
    · exact Nat.zero_le _

/-- A tile does not reach beyond the source. -/
theorem classify_le (b : UInt8) (rest : List UInt8) : (classify b rest).length ≤ rest.length := by
  unfold classify
  split
  · exact Nat.zero_le _
  split
  · exact numberLength_le
  split
  · exact countWhile_le
  cases quote? b with
  | some quote =>
    simp only [classifyText]
    split
    · next hends => exact hends
    · exact Nat.le_refl _
  | none =>
    cases symbol? b with
    | none => exact countWhile_le
    | some symbol =>
      cases symbol
      case slash => exact classifySlash_le
      all_goals exact classifySymbol_le _

end

/-- A source in which nothing is left open, a newline, and another source. -/
theorem tiles_append {source after : List UInt8} (h : ∀ t ∈ tiles source, t.content.Ended) :
    tiles (source ++ byte '\n' :: after) =
      tiles source ++ ⟨.skipped, [byte '\n'], 1⟩ :: tiles after := by
  induction hlength : source.length using Nat.strongRecOn generalizing source with
  | ind n ih =>
    cases source with
    | nil => rfl
    | cons b rest =>
      rw [tiles_cons] at h ⊢
      rw [List.cons_append, tiles_cons, classify_append rfl (.inl rfl) (h _ List.mem_cons_self),
        Cut.tile, List.take_append_of_le_length (classify_le b rest),
        List.drop_append_of_le_length (classify_le b rest),
        ih _ ?_ (fun t ht => h t (List.mem_cons_of_mem _ ht)) rfl]
      · rfl
      · simp only [← hlength, List.length_drop, List.length_cons]
        omega

end Tile

/-- The tokens that are read: what follows the first end mark is not. -/
abbrev beforeEnd (tokens : List Token) : List Token :=
  tokens.takeWhile fun t => !t.isEof

/-- As many lines further down. -/
abbrev Relabelling.down (lines : Nat) : Relabelling :=
  ⟨(· + lines), fun id => id⟩

namespace Item

variable {line : Nat} {ts ts' : List Tile}

/-- The tokens of tiles. -/
abbrev tokens (line : Nat) (ts : List Tile) : List Token :=
  (ofTiles line ts).filterMap token?

theorem ofTiles_cons (t : Tile) :
    ofTiles line (t :: ts) =
      (t.item? (line + t.newlines)).toList ++ ofTiles (line + t.newlines) ts := by
  rw [ofTiles]
  unfold Tile.item?
  cases t.content <;> rfl

theorem tokens_cons (t : Tile) :
    tokens line (t :: ts) =
      (match t.content with
        | .token kind => [⟨kind, line + t.newlines⟩]
        | _ => []) ++ tokens (line + t.newlines) ts := by
  unfold tokens
  rw [ofTiles]
  cases t.content <;> rfl

/-- The number of newlines in tiles. -/
def newlines : List Tile → Nat
  | [] => 0
  | t :: ts => t.newlines + newlines ts

/-- No token of a tile is before the line where the tiles begin or behind the one where they end. -/
theorem line_of_mem_tokens :
    ∀ t ∈ tokens line ts, line ≤ t.line ∧ t.line ≤ line + newlines ts := by
  induction ts generalizing line with
  | nil =>
    intro t ht
    obtain rfl := List.mem_singleton.mp ht
    exact ⟨Nat.le_refl _, Nat.le_add_right _ _⟩
  | cons first ts ih =>
    intro t ht
    rw [tokens_cons, List.mem_append] at ht
    rw [newlines]
    rcases ht with ht | ht
    · split at ht
      · obtain rfl := List.mem_singleton.mp ht
        dsimp only
        omega
      · cases ht
    · have := ih t ht
      omega

/-- An item as many lines further down. -/
def down (lines : Nat) : Item → Item
  | token t => token (t.relabel (.down lines))
  | fault line f => fault (line + lines) f

theorem ofTiles_down (lines : Nat) :
    ofTiles (line + lines) ts = (ofTiles line ts).map (down lines) := by
  induction ts generalizing line with
  | nil => rfl
  | cons t ts ih =>
    rw [ofTiles_cons, ofTiles_cons, List.map_append, ← ih, Nat.add_right_comm]
    congr 1
    unfold Tile.item?
    cases t.content <;> rfl

theorem tokens_down (items : List Item) (lines : Nat) :
    (items.map (down lines)).filterMap token? =
      (items.filterMap token?).map (Token.relabel (.down lines)) := by
  rw [List.filterMap_map, List.map_filterMap]
  congr 1
  funext item
  cases item <;> rfl

theorem faults_down (items : List Item) (lines : Nat) :
    (items.map (down lines)).filterMap fault? =
      (items.filterMap fault?).map (Prod.map (· + lines) id) := by
  rw [List.filterMap_map, List.map_filterMap]
  congr 1
  funext item
  cases item <;> rfl

/-- The token of a tile that is not the end mark is none either. -/
theorem isEof_of_item? {t : Tile} {token' : Token} (h : t.content ≠ .token .eof)
    (htoken : t.item? line = some (.token token')) : token'.isEof = false := by
  unfold Tile.item? at htoken
  split at htoken
  · next kind hkind =>
    cases htoken
    unfold Token.isEof
    split
    · next heof => exact absurd (hkind.trans (congrArg _ heof)) h
    · rfl
  · cases htoken
  · cases htoken

/-- Behind the items of tiles come those of the tiles behind them, in the place of the end mark. -/
theorem ofTiles_append (h : ∀ t ∈ ts, t.content ≠ .token .eof) :
    ∃ items, ofTiles line ts = items ++ [.token ⟨.eof, line + newlines ts⟩] ∧
      (∀ t, .token t ∈ items → t.isEof = false) ∧
      ∀ ts', ofTiles line (ts ++ ts') = items ++ ofTiles (line + newlines ts) ts' := by
  induction ts generalizing line with
  | nil => exact ⟨[], rfl, nofun, fun _ => rfl⟩
  | cons t ts ih =>
    obtain ⟨items, hitems, hmarks, happend⟩ :=
      @ih (line + t.newlines) fun t' ht' => h t' (List.mem_cons_of_mem t ht')
    refine ⟨(t.item? (line + t.newlines)).toList ++ items, ?_, fun t' ht' => ?_, fun ts' => ?_⟩
    · rw [ofTiles_cons, hitems, newlines, Nat.add_assoc, List.append_assoc]
    · rcases List.mem_append.mp ht' with hfirst | hlater
      · exact isEof_of_item? (h t List.mem_cons_self) (by simpa using hfirst)
      · exact hmarks t' hlater
    · rw [List.cons_append, ofTiles_cons, happend, newlines, Nat.add_assoc, List.append_assoc]

/-- A tile that is a fault is one of the faults. -/
theorem exists_fault_of_mem {t : Tile} (ht : t ∈ ts) {f : LexicalFault}
    (hf : t.content = .fault f) : ∃ line', .fault line' f ∈ ofTiles line ts := by
  induction ts generalizing line with
  | nil => cases ht
  | cons first ts ih =>
    rw [ofTiles_cons]
    rcases List.mem_cons.mp ht with rfl | hlater
    · exact ⟨line + t.newlines, List.mem_append_left _ (by simp [Tile.item?, hf])⟩
    · obtain ⟨line', hmem⟩ := @ih (line + first.newlines) hlater
      exact ⟨line', List.mem_append_right _ hmem⟩

theorem newlines_eq_count (h : ∀ t ∈ ts, t.newlines = t.bytes.count (byte '\n')) :
    newlines ts = (ts.flatMap Tile.bytes).count (byte '\n') := by
  induction ts with
  | nil => rfl
  | cons t ts ih =>
    rw [List.flatMap_cons, List.count_append, newlines, h t List.mem_cons_self,
      ih fun t' ht' => h t' (List.mem_cons_of_mem t ht')]

theorem newlines_tiles (source : List UInt8) :
    newlines (tiles source) = source.count (byte '\n') := by
  rw [newlines_eq_count Tile.newlines_of_mem_tiles, flatMap_bytes_tiles]

end Item

/-- No token is on a line that the source does not have. -/
theorem line_of_mem_tokensOf {source : List UInt8} :
    ∀ t ∈ tokensOf source, 1 ≤ t.line ∧ t.line ≤ 1 + source.count (byte '\n') := by
  intro t ht
  have hline := Item.line_of_mem_tokens t ht
  rwa [Item.newlines_tiles] at hline

section

variable {first second : List UInt8}

/-- In a source whose faults are all unexpected characters nothing is left open. -/
theorem ended_of_faults (h : ∀ fault ∈ faultsOf first,
    fault.2 ≠ .unterminatedText ∧ fault.2 ≠ .unterminatedComment) :
    ∀ t ∈ tiles first, t.content.Ended := by
  intro t ht
  have hfault : ∀ f, t.content = .fault f → f ≠ .unterminatedText ∧ f ≠ .unterminatedComment := by
    intro f hf
    obtain ⟨line, hmem⟩ : ∃ line, .fault line f ∈ scan first := Item.exists_fault_of_mem ht hf
    exact h (line, f) (List.mem_filterMap.mpr ⟨_, hmem, rfl⟩)
  exact ⟨fun hf => (hfault _ hf).1 rfl, fun hf => (hfault _ hf).2 rfl⟩

/-- The items of a source in which nothing is left open, and those of what comes behind a newline,
that many lines further down. -/
theorem scan_append (h : ∀ t ∈ tiles first, t.content.Ended) :
    ∃ items, scan first = items ++ [.token ⟨.eof, 1 + first.count (byte '\n')⟩] ∧
      (∀ t, .token t ∈ items → t.isEof = false) ∧
      scan (first ++ byte '\n' :: second) =
        items ++ (scan second).map (.down (1 + first.count (byte '\n'))) := by
  have hmarks : ∀ t ∈ tiles first, t.content ≠ .token .eof := fun t ht hcontent =>
    (lexeme_of_mem_tiles ht hcontent).2 rfl
  obtain ⟨items, hitems, hnone, happend⟩ := @Item.ofTiles_append 1 _ hmarks
  rw [Item.newlines_tiles] at hitems happend
  refine ⟨items, hitems, hnone, ?_⟩
  unfold scan
  rw [Tile.tiles_append h, happend, ← Item.ofTiles_down, Nat.add_comm 1 (1 + _)]
  rfl

theorem ended_of_no_faults (h : faultsOf first = []) : ∀ t ∈ tiles first, t.content.Ended :=
  ended_of_faults (by simp [h])

/-- Behind a source without faults there are the faults of what follows it. -/
theorem faultsOf_joined (h : faultsOf first = []) :
    faultsOf (first ++ byte '\n' :: second) =
      (faultsOf second).map (Prod.map (· + (1 + first.count (byte '\n'))) id) := by
  obtain ⟨items, hitems, -, hjoined⟩ := @scan_append first second (ended_of_no_faults h)
  have hnone : items.filterMap Item.fault? = [] := by
    unfold faultsOf at h
    rw [hitems, List.filterMap_append, List.append_eq_nil_iff] at h
    exact h.1
  unfold faultsOf
  rw [hjoined, List.filterMap_append, hnone, Item.faults_down, List.nil_append]

/-- Behind the tokens of a source without faults come those of what follows it, that many lines
further down. -/
theorem tokensOf_joined (h : faultsOf first = []) :
    beforeEnd (tokensOf (first ++ byte '\n' :: second)) =
      beforeEnd (tokensOf first) ++ (beforeEnd (tokensOf second)).map
        (Token.relabel (.down (1 + first.count (byte '\n')))) := by
  obtain ⟨items, hitems, hmarks, hjoined⟩ := @scan_append first second (ended_of_no_faults h)
  have hbefore : ∀ t ∈ items.filterMap Item.token?, (!t.isEof) = true := by
    intro t ht
    obtain ⟨item, hitem, htoken⟩ := List.mem_filterMap.mp ht
    cases item with
    | fault line f => cases htoken
    | token t' =>
      cases htoken
      rw [hmarks t hitem]
      rfl
  unfold tokensOf beforeEnd
  rw [hjoined, hitems, List.filterMap_append, List.filterMap_append, Item.tokens_down,
    List.takeWhile_append_of_pos hbefore, List.takeWhile_append_of_pos hbefore,
    List.takeWhile_map]
  simp only [List.append_assoc]
  rfl

/-- Newlines in front of a source move it that many lines down. -/
theorem tokensOf_down (lines : Nat) (source : List UInt8) :
    let moved := List.replicate lines (byte '\n') ++ source
    faultsOf moved = (faultsOf source).map (Prod.map (· + lines) id) ∧
      beforeEnd (tokensOf moved) =
        (beforeEnd (tokensOf source)).map (Token.relabel (.down lines)) := by
  induction lines with
  | zero => exact ⟨(List.map_id _).symm, (List.map_id _).symm⟩
  | succ lines ih =>
    obtain ⟨hfaults, htokens⟩ := ih
    have hnone : faultsOf [] = [] := rfl
    have hempty : beforeEnd (tokensOf []) = [] := rfl
    have hsource : List.replicate (lines + 1) (byte '\n') ++ source =
        [] ++ byte '\n' :: (List.replicate lines (byte '\n') ++ source) := rfl
    dsimp only
    rw [hsource, faultsOf_joined hnone, tokensOf_joined hnone, hfaults, htokens, List.map_map,
      List.map_map, hempty]
    exact ⟨rfl, rfl⟩

/-- Scanning a source in which no text and no comment is left open, a newline, and another source
gives the items of the first one without its end mark, faults included, and then those of the second
one, each as many lines further down as there are newlines before. -/
theorem scan_joined (first second : List UInt8)
    (h : ∀ fault ∈ faultsOf first,
      fault.2 ≠ .unterminatedText ∧ fault.2 ≠ .unterminatedComment) :
    ∃ items, scan first = items ++ [.token ⟨.eof, 1 + first.count (byte '\n')⟩] ∧
      (∀ t, .token t ∈ items → t.isEof = false) ∧
      scan (first ++ byte '\n' :: second) =
        items ++ (scan second).map (.down (1 + first.count (byte '\n'))) :=
  scan_append (ended_of_faults h)

/-- A comment, a quotation mark in it, and bytes that begin nothing stand before the newline; a text
is left open behind it. -/
theorem scan_joined_unexpected :
    let first := Utf8.encode "a #\n@ // \""
    let second := Utf8.encode "b\n'"
    (∀ fault ∈ faultsOf first,
      fault.2 ≠ .unterminatedText ∧ fault.2 ≠ .unterminatedComment) ∧
    (faultsOf first).length = 2 ∧ (faultsOf second).length = 1 ∧
    ∃ items, scan first = items ++ [.token ⟨.eof, 2⟩] ∧
      (∀ t, .token t ∈ items → t.isEof = false) ∧
      scan (first ++ byte '\n' :: second) = items ++ (scan second).map (.down 2) := by
  intro first second
  have h : ∀ fault ∈ faultsOf first,
      fault.2 ≠ .unterminatedText ∧ fault.2 ≠ .unterminatedComment := by
    decide +kernel
  exact ⟨h, by decide +kernel, by decide +kernel, scan_joined first second h⟩

end

end LoxLang
