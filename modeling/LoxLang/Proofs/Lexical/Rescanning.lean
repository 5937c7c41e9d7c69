import LoxLang.Proofs.Lexical.Joining
import LoxLang.Proofs.Text.Encoding

/-!
# Scanning lexemes

The lexemes of the tokens of a source, with a blank between each two, are scanned as the same tokens
again (`lexemes_rescanned`). The bytes of a lexeme are one token on their own (`Tile.Alone`), and a
blank behind them does not change this. Those of a text need not be the bytes that it has in its
source, as what encodes nothing there has been replaced; but they hold no other quotation mark.
-/

namespace LoxLang

namespace Tile

variable {b : UInt8} {rest : List UInt8}

/-! ## Tokens on their own -/

/-- Bytes of which all together are one token. -/
def Alone (kind : Token.Kind) (bytes : List UInt8) : Prop :=
  ∃ b body newlines, bytes = b :: body ∧
    classify b body = ⟨.token kind, body.length, newlines⟩

theorem countWhile_take {p : UInt8 → Bool} {n : Nat} (h : countWhile p rest ≤ n) :
    countWhile p (rest.take n) = countWhile p rest := by
  induction rest generalizing n with
  | nil => simp
  | cons c rest ih =>
    unfold countWhile at h
    by_cases hc : p c = true
    · rw [if_pos hc] at h
      obtain ⟨n, rfl⟩ := Nat.exists_eq_add_one.mpr (Nat.lt_of_lt_of_le (Nat.succ_pos _) h)
      rw [List.take_succ_cons, countWhile, countWhile, if_pos hc, if_pos hc,
        ih (Nat.le_of_succ_le_succ h)]
    · cases n with
      | zero => rw [List.take_zero, countWhile, countWhile, if_neg hc]
      | succ n => rw [List.take_succ_cons, countWhile, countWhile, if_neg hc, if_neg hc]

theorem numberLength_take : numberLength (rest.take (numberLength rest)) = numberLength rest := by
  rcases numberLength_cases rest with ⟨digit, more, hdrop, hdigit, hlength⟩ | ⟨hlength, -⟩
  · have hcount : countWhile isDigit (rest.take (numberLength rest)) = countWhile isDigit rest :=
      countWhile_take (by omega)
    have htake : (rest.take (numberLength rest)).drop (countWhile isDigit rest) =
        byte '.' :: digit :: more.take (countWhile isDigit more) := by
      rw [List.drop_take, hdrop, hlength, Nat.add_sub_cancel_left, Nat.add_comm 2]
      rfl
    rw [numberLength, hcount, htake]
    dsimp only
    rw [if_pos (by simp [hdigit]), countWhile_take (Nat.le_refl _), hlength, Nat.add_assoc]
  · have hcount : countWhile isDigit (rest.take (numberLength rest)) = numberLength rest := by
      rw [countWhile_take (Nat.le_of_eq hlength.symm), hlength]
    have htake : (rest.take (numberLength rest)).drop (numberLength rest) = [] := by simp
    rw [numberLength, hcount, htake]

theorem alone_number (hblank : isBlankByte b = false) (hb : isDigit b = true) :
    Alone (.number (Utf8.decode (b :: rest.take (numberLength rest)))
        (numberValue (b :: rest.take (numberLength rest))))
      (b :: rest.take (numberLength rest)) := by
  have hlength : (rest.take (numberLength rest)).length = numberLength rest := by
    rw [List.length_take, Nat.min_eq_left numberLength_le]
  refine ⟨b, _, 0, rfl, ?_⟩
  rw [classify, hblank, if_neg Bool.false_ne_true, if_pos hb, numberLength_take, hlength]
  dsimp only
  rw [List.take_take, Nat.min_self]

theorem alone_word (hblank : isBlankByte b = false) (hdigit : isDigit b = false)
    (hb : startsWord b = true) :
    Alone (wordKind (b :: rest.take (countWhile isWordByte rest)))
      (b :: rest.take (countWhile isWordByte rest)) := by
  have hlength : (rest.take (countWhile isWordByte rest)).length = countWhile isWordByte rest := by
    rw [List.length_take, Nat.min_eq_left countWhile_le]
  refine ⟨b, _, 0, rfl, ?_⟩
  rw [classify, hblank, if_neg Bool.false_ne_true, hdigit, if_neg Bool.false_ne_true, if_pos hb,
    countWhile_take (Nat.le_refl _), hlength]
  dsimp only
  rw [List.take_take, Nat.min_self]

theorem alone_symbol (s : Symbol) : Alone (.symbol s) (Utf8.encode s.spelling) := by
  cases s <;> exact ⟨_, _, 0, rfl, rfl⟩

theorem classify_quote (q : Quote) (rest : List UInt8) :
    classify (byte q.char) rest = classifyText q rest := by
  cases q <;> rfl

/-- The quotation marks around a text are the only ones of their kind, whatever stands in it for
bytes that encode nothing. -/
theorem alone_text (q : Quote) {contents : List UInt8} (h : byte q.char ∉ contents) :
    Alone (.text q (Utf8.decode contents))
      (Utf8.encode (Token.Kind.text q (Utf8.decode contents)).lexeme) := by
  have hascii : byte q.char < 0x80 := by cases q <;> decide
  have hzero : byte q.char ≠ 0 := by cases q <;> decide
  have hmark : Utf8.encode q.char.toString = [byte q.char] := by cases q <;> rfl
  have hnone := Utf8.not_mem_encode_decode hascii hzero h
  let inner := Utf8.encode (Utf8.decode contents)
  have hcount : countWhile (· != byte q.char) (inner ++ [byte q.char]) = inner.length := by
    refine length_eq_countWhile (fun c hc => ?_) (by simp)
    rw [bne_iff_ne]
    rintro rfl
    exact hnone hc
  refine ⟨byte q.char, inner ++ [byte q.char], countNewlines inner, ?_, ?_⟩
  · unfold Token.Kind.lexeme
    rw [Utf8.encode_append, Utf8.encode_append, hmark]
    rfl
  · rw [classify_quote, classifyText, hcount, if_pos (by simp), List.take_left,
      Utf8.decode_encode, List.length_append]
    rfl

theorem IsWord.ascii {bytes : List UInt8} (h : IsWord bytes) : ∀ c ∈ bytes, c < 0x80 := by
  cases h with
  | mk first others =>
    intro c hc
    rcases List.mem_cons.mp hc with rfl | hc
    · exact ascii_of_startsWord first
    · exact ascii_of_isWordByte (others c hc)

theorem IsNumber.ascii {bytes : List UInt8} (h : IsNumber bytes) : ∀ c ∈ bytes, c < 0x80 := by
  cases h with
  | whole h => exact fun c hc => ascii_of_isDigit (h.2 c hc)
  | decimal h h' =>
    intro c hc
    rcases List.mem_append.mp hc with hc | hc
    · exact ascii_of_isDigit (h.2 c hc)
    · rcases List.mem_cons.mp hc with rfl | hc
      · decide
      · exact ascii_of_isDigit (h'.2 c hc)

theorem symbol_of_classifySymbol {symbol : Symbol} {kind : Token.Kind}
    (h : (classifySymbol symbol rest).content = .token kind) : ∃ s, kind = .symbol s := by
  unfold classifySymbol at h
  split at h
  · split at h
    all_goals exact ⟨_, (Content.token.inj h).symm⟩
  · exact ⟨_, (Content.token.inj h).symm⟩

theorem symbol_of_classifySlash {kind : Token.Kind}
    (h : (classifySlash rest).content = .token kind) : ∃ s, kind = .symbol s := by
  unfold classifySlash at h
  split at h
  · exact ⟨_, (Content.token.inj h).symm⟩
  · split at h
    · cases h
    · split at h
      · split at h <;> cases h
      · exact ⟨_, (Content.token.inj h).symm⟩

/-- The lexeme of a token that is scanned is this token on its own. -/
theorem alone_lexeme {kind : Token.Kind} (h : (classify b rest).content = .token kind) :
    Alone kind (Utf8.encode kind.lexeme) := by
  have hlexeme : kind.lexeme = Utf8.decode (b :: rest.take (classify b rest).length) :=
    (h ▸ fits_classify b rest : Fits (.token kind) _ _).lexeme.1
  unfold classify at h hlexeme
  -- The classes of first bytes, in the order in which they are tried.
  by_cases hblank : isBlankByte b = true
  · rw [if_pos hblank] at h
    cases h
  rw [if_neg hblank] at h hlexeme
  rw [Bool.not_eq_true] at hblank
  by_cases hdigit : isDigit b = true
  · rw [if_pos hdigit] at h hlexeme
    have hbytes := (@longest_number b rest hdigit).1.ascii
    dsimp only at h hlexeme
    rw [hlexeme, Utf8.encode_decode hbytes, ← Content.token.inj h]
    exact alone_number hblank hdigit
  rw [if_neg hdigit] at h hlexeme
  rw [Bool.not_eq_true] at hdigit
  by_cases hword : startsWord b = true
  · rw [if_pos hword] at h hlexeme
    have hbytes := (@longest_word b rest hword).1.ascii
    dsimp only at h hlexeme
    rw [hlexeme, Utf8.encode_decode hbytes, ← Content.token.inj h]
    exact alone_word hblank hdigit hword
  rw [if_neg hword] at h
  cases hquote : quote? b with
  | some q =>
    rw [hquote] at h
    dsimp only [classifyText] at h
    split at h
    · rw [← Content.token.inj h]
      exact alone_text q not_mem_take_countWhile
    · cases h
  | none =>
    rw [hquote] at h
    cases hsymbol : symbol? b with
    | none =>
      rw [hsymbol] at h
      cases h
    | some symbol =>
      obtain ⟨s, rfl⟩ : ∃ s, kind = .symbol s := by
        rw [hsymbol] at h
        cases symbol
        case slash => exact symbol_of_classifySlash h
        all_goals exact symbol_of_classifySymbol h
      exact alone_symbol s

/-! ## Tokens next to each other -/

/-- A tile that is a token is its lexeme on its own. -/
theorem alone_of_mem_tiles {source : List UInt8} {t : Tile} (ht : t ∈ tiles source)
    {kind : Token.Kind} (h : t.content = .token kind) : Alone kind (Utf8.encode kind.lexeme) := by
  induction hts : tiles source generalizing source with
  | nil =>
    rw [hts] at ht
    cases ht
  | cons first ts ih =>
    cases source with
    | nil => cases hts
    | cons b rest =>
      rw [tiles_cons] at ht hts
      obtain ⟨-, htail⟩ := List.cons.inj hts
      rcases List.mem_cons.mp ht with rfl | hlater
      · exact alone_lexeme h
      · exact ih hlater htail

/-- The contents of a text are what the bytes between its quotation marks are decoded to. -/
theorem quoted_of_mem_tiles {source : List UInt8} {t : Tile} (ht : t ∈ tiles source) {q : Quote}
    {contents : String} (h : t.content = .token (.text q contents)) :
    ∃ inner, t.bytes = byte q.char :: (inner ++ [byte q.char]) ∧ contents = Utf8.decode inner := by
  obtain ⟨before, after, hsource⟩ := List.append_of_mem ht
  have hfits := fits_tiles hsource
  rw [h] at hfits
  generalize t.bytes = bytes at hfits
  generalize hkind : Token.Kind.text q contents = kind at hfits
  cases hfits with
  | word _ =>
    unfold wordKind at hkind
    dsimp only at hkind
    split at hkind <;> cases hkind
  | number _ => cases hkind
  | symbol _ _ => cases hkind
  | text _ =>
    obtain ⟨rfl, rfl⟩ := Token.Kind.text.inj hkind
    exact ⟨_, rfl, rfl⟩

theorem tiles_alone {kind : Token.Kind} {bytes : List UInt8} (h : Alone kind bytes) :
    ∃ newlines, tiles bytes = [⟨.token kind, bytes, newlines⟩] := by
  obtain ⟨b, body, newlines, rfl, hclassify⟩ := h
  refine ⟨newlines, ?_⟩
  rw [tiles_cons, hclassify, Cut.tile, List.take_length, List.drop_length]
  rfl

/-- A blank behind a token does not belong to it. -/
theorem tiles_alone_append {kind : Token.Kind} {bytes : List UInt8} (h : Alone kind bytes)
    (after : List UInt8) :
    ∃ newlines, tiles (bytes ++ byte ' ' :: after) =
      ⟨.token kind, bytes, newlines⟩ :: ⟨.skipped, [byte ' '], 0⟩ :: tiles after := by
  obtain ⟨b, body, newlines, rfl, hclassify⟩ := h
  have hended : (classify b body).content.Ended := by
    rw [hclassify]
    exact ⟨nofun, nofun⟩
  have hskipped : (classify b body).content ≠ .skipped := by
    rw [hclassify]
    nofun
  refine ⟨newlines, ?_⟩
  rw [List.cons_append, tiles_cons, classify_append rfl (.inr hskipped) hended, hclassify,
    Cut.tile, List.take_left, List.drop_left, tiles_cons]
  rfl

end Tile

/-- Lexemes with a blank between each two. -/
abbrev spaced (kinds : List Token.Kind) : String :=
  " ".intercalate (kinds.map Token.Kind.lexeme)

/-- Each of the lexemes is scanned as its token, and nothing else is. -/
theorem ofTiles_spaced {kinds : List Token.Kind}
    (h : ∀ kind ∈ kinds, Tile.Alone kind (Utf8.encode kind.lexeme)) (line : Nat) :
    ∃ (tokens : List Token) (last : Nat), Item.ofTiles line (tiles (Utf8.encode (spaced kinds))) =
        tokens.map Item.token ++ [.token ⟨.eof, last⟩] ∧ tokens.map Token.kind = kinds := by
  induction kinds generalizing line with
  | nil => exact ⟨[], line, rfl, rfl⟩
  | cons kind kinds ih =>
    have hkind := h kind List.mem_cons_self
    cases kinds with
    | nil =>
      obtain ⟨newlines, htiles⟩ := Tile.tiles_alone hkind
      rw [spaced, List.map_singleton, String.intercalate_singleton, htiles]
      exact ⟨[⟨kind, _⟩], _, rfl, rfl⟩
    | cons next kinds =>
      have hblank : Utf8.encode " " = [byte ' '] := rfl
      have htext : Utf8.encode (spaced (kind :: next :: kinds)) =
          Utf8.encode kind.lexeme ++ byte ' ' :: Utf8.encode (spaced (next :: kinds)) := by
        rw [spaced, List.map_cons, List.map_cons, String.intercalate_cons_cons,
          Utf8.encode_append, Utf8.encode_append, hblank, List.append_assoc]
        rfl
      -- The blank in between is a tile of its own, which gives no token.
      obtain ⟨newlines, htiles⟩ :=
        Tile.tiles_alone_append hkind (Utf8.encode (spaced (next :: kinds)))
      obtain ⟨tokens, last, hitems, hkinds⟩ :=
        ih (fun kind' hkind' => h kind' (List.mem_cons_of_mem kind hkind')) (line + newlines)
      refine ⟨⟨kind, line + newlines⟩ :: tokens, last, ?_, congrArg (kind :: ·) hkinds⟩
      rw [htext, htiles, Item.ofTiles_cons, Item.ofTiles_cons]
      exact congrArg (Item.token ⟨kind, line + newlines⟩ :: ·) hitems

/-- A token other than the end mark is one of the tiles. -/
theorem Item.tile_of_mem_tokens {line : Nat} {ts : List Tile} {t : Token}
    (ht : t ∈ Item.tokens line ts) (hend : t.isEof = false) :
    ∃ tile ∈ ts, tile.content = .token t.kind := by
  induction ts generalizing line with
  | nil =>
    obtain rfl := List.mem_singleton.mp ht
    cases hend
  | cons tile ts ih =>
    rw [Item.tokens_cons, List.mem_append] at ht
    rcases ht with hfirst | hlater
    · split at hfirst
      · next kind hkind =>
        obtain rfl := List.mem_singleton.mp hfirst
        exact ⟨tile, List.mem_cons_self, hkind⟩
      · cases hfirst
    · obtain ⟨tile', htile, hcontent⟩ := ih hlater
      exact ⟨tile', List.mem_cons_of_mem tile htile, hcontent⟩

/-- The lexemes of the tokens of a source, with a blank between each two, are scanned without faults
as tokens of the same kinds, names, contents and numbers, and one end mark. The lexeme of a token is
the text of its bytes in the source; the contents of a text are those of its bytes between the
quotation marks, whether or not they are well formed. -/
theorem lexemes_rescanned (source : List UInt8) :
    let read := beforeEnd (tokensOf source)
    (∃ (tokens : List Token) (last : Nat),
      scan (Utf8.encode (" ".intercalate (read.map Token.lexeme))) =
        tokens.map Item.token ++ [.token ⟨.eof, last⟩] ∧
      tokens.map Token.kind = read.map Token.kind) ∧
    ∀ t ∈ read, ∃ tile ∈ tiles source, tile.content = .token t.kind ∧
      t.lexeme = Utf8.decode tile.bytes ∧
      ∀ quote contents, t.kind = .text quote contents →
        (∃ inner, tile.bytes = byte quote.char :: (inner ++ [byte quote.char]) ∧
          contents = Utf8.decode inner) ∧
        t.lexeme = quote.char.toString ++ contents ++ quote.char.toString := by
  intro read
  have htile : ∀ t ∈ read, ∃ tile ∈ tiles source, tile.content = .token t.kind := by
    intro t ht
    have hend : (!t.isEof) = true := List.all_eq_true.mp List.all_takeWhile t ht
    exact Item.tile_of_mem_tokens ((List.takeWhile_sublist _).subset ht) (by simpa using hend)
  refine ⟨?_, fun t ht => ?_⟩
  -- Every kind that is read has a lexeme that is scanned as this kind when it stands alone.
  · have halone : ∀ kind ∈ read.map Token.kind, Tile.Alone kind (Utf8.encode kind.lexeme) := by
      intro kind hkind
      obtain ⟨t, ht, rfl⟩ := List.mem_map.mp hkind
      obtain ⟨tile, hmem, hcontent⟩ := htile t ht
      exact Tile.alone_of_mem_tiles hmem hcontent
    have hscan := ofTiles_spaced halone 1
    rw [spaced, List.map_map] at hscan
    exact hscan
  · obtain ⟨tile, hmem, hcontent⟩ := htile t ht
    refine ⟨tile, hmem, hcontent, (lexeme_of_mem_tiles hmem hcontent).1, ?_⟩
    intro quote contents hkind
    refine ⟨Tile.quoted_of_mem_tiles hmem (hkind ▸ hcontent), ?_⟩
    unfold Token.lexeme
    rw [hkind]
    rfl

end LoxLang
