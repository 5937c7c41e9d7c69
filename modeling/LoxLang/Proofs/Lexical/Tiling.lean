import LoxLang.Lexical.Scanner
import LoxLang.Proofs.Text.Decoding

/-!
# What tiles are

The rules by which a source is cut into tiles, each said of the bytes of a tile and of those that
follow it (`Tile.Fits`), and that the tiles of every source fit them. Words, numbers and symbols
are the longest that begin where they do, texts and comments end where they first can, and a run of
bytes that begin nothing is a single fault.
-/

namespace LoxLang

namespace Tile

/-! ## Rules -/

/-- A letter or an underscore, and then letters, underscores and digits. -/
inductive IsWord : List UInt8 → Prop
  | mk {b : UInt8} {rest : List UInt8} (first : startsWord b = true)
      (others : ∀ c ∈ rest, isWordByte c = true) : IsWord (b :: rest)

/-- One digit or more. -/
def IsDigits (bytes : List UInt8) : Prop :=
  bytes ≠ [] ∧ ∀ b ∈ bytes, isDigit b = true

/-- Digits, or digits on both sides of a point. -/
inductive IsNumber : List UInt8 → Prop
  | whole {digits : List UInt8} (h : IsDigits digits) : IsNumber digits
  | decimal {digits decimals : List UInt8} (h : IsDigits digits) (h' : IsDigits decimals) :
      IsNumber (digits ++ byte '.' :: decimals)

/-- The spelling of a symbol. -/
def IsSymbol (bytes : List UInt8) : Prop :=
  ∃ s : Symbol, bytes = Utf8.encode s.spelling

/-- The longest of all that follow a rule and begin in the same place. -/
def Longest (rule : List UInt8 → Prop) (bytes rest : List UInt8) : Prop :=
  rule bytes ∧ ∀ other, other <+: bytes ++ rest → rule other → other.length ≤ bytes.length

/-- A byte with which something other than a fault can begin. -/
inductive Opens (b : UInt8) : Prop
  | blank (h : isBlankByte b = true)
  | word {rest : List UInt8} (h : IsWord (b :: rest))
  | number {rest : List UInt8} (h : IsNumber (b :: rest))
  | symbol {rest : List UInt8} (h : IsSymbol (b :: rest))
  | quote (q : Quote) (h : b = byte q.char)

/-- How a comment between marks ends. -/
def commentEnd : List UInt8 := [byte '*', byte '/']

/-- What bytes are in front of the given rest of a source. -/
inductive Fits : Content → List UInt8 → List UInt8 → Prop
  | word {bytes rest : List UInt8} (h : Longest IsWord bytes rest) :
      Fits (.token (wordKind bytes)) bytes rest
  | number {bytes rest : List UInt8} (h : Longest IsNumber bytes rest) :
      Fits (.token (.number (Utf8.decode bytes) (numberValue bytes))) bytes rest
  | symbol {s : Symbol} {rest : List UInt8}
      (h : Longest IsSymbol (Utf8.encode s.spelling) rest)
      (comment : s = .slash → rest.head? ≠ some (byte '/') ∧ rest.head? ≠ some (byte '*')) :
      Fits (.token (.symbol s)) (Utf8.encode s.spelling) rest
  | text {q : Quote} {contents rest : List UInt8} (h : byte q.char ∉ contents) :
      Fits (.token (.text q (Utf8.decode contents)))
        (byte q.char :: (contents ++ [byte q.char])) rest
  | blank {b : UInt8} {rest : List UInt8} (h : isBlankByte b = true) : Fits .skipped [b] rest
  | lineComment {body rest : List UInt8} (h : byte '\n' ∉ body)
      (ends : ∀ b ∈ rest.head?, b = byte '\n') :
      Fits .skipped (byte '/' :: byte '/' :: body) rest
  | blockComment {body rest : List UInt8} (h : ¬commentEnd <:+: body ++ [byte '*']) :
      Fits .skipped (byte '/' :: byte '*' :: (body ++ commentEnd)) rest
  | unexpected {b : UInt8} {bytes rest : List UInt8} (h : ∀ c ∈ b :: bytes, ¬Opens c)
      (ends : ∀ c ∈ rest.head?, Opens c) :
      Fits (.fault (.unexpected (Utf8.decode (b :: bytes)))) (b :: bytes) rest
  | openText {q : Quote} {contents : List UInt8} (h : byte q.char ∉ contents) :
      Fits (.fault .unterminatedText) (byte q.char :: contents) []
  | openComment {body : List UInt8} (h : ¬commentEnd <:+: body) :
      Fits (.fault .unterminatedComment) (byte '/' :: byte '*' :: body) []

/-! ## Counting -/

section

variable {p : UInt8 → Bool} {xs : List UInt8}

theorem countWhile_le : countWhile p xs ≤ xs.length := by
  induction xs with
  | nil => simp [countWhile]
  | cons b rest ih =>
    unfold countWhile
    split
    · simpa using ih
    · omega

theorem of_mem_take_countWhile : ∀ b ∈ xs.take (countWhile p xs), p b = true := by
  induction xs with
  | nil => simp [countWhile]
  | cons b rest ih =>
    unfold countWhile
    split
    · next hb =>
      intro c hc
      rcases List.mem_cons.mp hc with rfl | hc
      · exact hb
      · exact ih c hc
    · simp

theorem of_mem_drop_countWhile : ∀ b ∈ (xs.drop (countWhile p xs)).head?, p b = false := by
  induction xs with
  | nil => simp [countWhile]
  | cons b rest ih =>
    unfold countWhile
    split
    · exact ih
    · next hb => simpa using hb

/-- No more in front satisfies a condition than is counted. -/
theorem length_le_countWhile {us : List UInt8} (h : us <+: xs) (hus : ∀ b ∈ us, p b = true) :
    us.length ≤ countWhile p xs := by
  induction us generalizing xs with
  | nil => simp
  | cons a us ih =>
    obtain ⟨vs, rfl⟩ := h
    have hrest : us.length ≤ countWhile p (us ++ vs) :=
      ih (List.prefix_append us vs) fun b hb => hus b (List.mem_cons_of_mem a hb)
    rw [List.cons_append, countWhile, if_pos (hus a List.mem_cons_self), List.length_cons]
    omega

/-- What is in front of the first that does not satisfy a condition is counted. -/
theorem length_eq_countWhile {us vs : List UInt8} {c : UInt8} (hus : ∀ b ∈ us, p b = true)
    (hc : p c = false) : countWhile p (us ++ c :: vs) = us.length := by
  induction us with
  | nil => simp [countWhile, hc]
  | cons a us ih =>
    rw [List.cons_append, countWhile, if_pos (hus a List.mem_cons_self),
      ih fun b hb => hus b (List.mem_cons_of_mem a hb), List.length_cons]

end

/-! ## Words and numbers -/

variable {b : UInt8} {rest : List UInt8}

theorem ascii_of_startsWord (h : startsWord b = true) : b < 0x80 := by
  unfold startsWord at h
  simp only [Bool.or_eq_true, Bool.and_eq_true, beq_iff_eq] at h
  rcases h with (⟨-, hle⟩ | ⟨-, hle⟩) | rfl
  · exact Std.lt_of_le_of_lt (of_decide_eq_true hle) (by decide)
  · exact Std.lt_of_le_of_lt (of_decide_eq_true hle) (by decide)
  · decide

theorem ascii_of_isDigit (h : isDigit b = true) : b < 0x80 := by
  unfold isDigit at h
  rw [Bool.and_eq_true] at h
  exact Std.lt_of_le_of_lt (of_decide_eq_true h.2) (by decide)

theorem ascii_of_isWordByte (h : isWordByte b = true) : b < 0x80 := by
  unfold isWordByte at h
  rw [Bool.or_eq_true] at h
  exact h.elim ascii_of_startsWord ascii_of_isDigit

theorem longest_word (hb : startsWord b = true) :
    Longest IsWord (b :: rest.take (countWhile isWordByte rest))
      (rest.drop (countWhile isWordByte rest)) := by
  refine ⟨.mk hb of_mem_take_countWhile, ?_⟩
  intro other hother hword
  rw [List.cons_append, List.take_append_drop] at hother
  obtain ⟨first, others⟩ := hword
  have hlength := length_le_countWhile (List.cons_prefix_cons.mp hother).2 others
  rw [List.length_cons, List.length_cons, List.length_take, Nat.min_eq_left countWhile_le]
  omega

theorem isDigits_take (hb : isDigit b = true) :
    IsDigits (b :: rest.take (countWhile isDigit rest)) := by
  refine ⟨List.cons_ne_nil _ _, fun c hc => ?_⟩
  rcases List.mem_cons.mp hc with rfl | hc
  · exact hb
  · exact of_mem_take_countWhile c hc

/-- Digits in front of a point are all digits in front. -/
theorem digits_before_point {digits decimals : List UInt8} (hb : isDigit b = true)
    (hdigits : IsDigits digits) (h : digits ++ byte '.' :: decimals <+: b :: rest) :
    digits.length = countWhile isDigit rest + 1 ∧
      byte '.' :: decimals <+: rest.drop (countWhile isDigit rest) := by
  obtain ⟨vs, hvs⟩ := h
  have hcount : countWhile isDigit (b :: rest) = digits.length := by
    rw [← hvs, List.append_assoc, List.cons_append]
    exact length_eq_countWhile hdigits.2 (by decide)
  rw [countWhile, if_pos hb] at hcount
  refine ⟨hcount.symm, vs, ?_⟩
  have hdrop : (b :: rest).drop digits.length = byte '.' :: (decimals ++ vs) := by
    rw [← hvs, List.append_assoc, List.drop_left, List.cons_append]
  rw [← hcount, List.drop_succ_cons] at hdrop
  rw [hdrop, List.cons_append]

/-- How far a number reaches: a point counts only between digits. -/
theorem numberLength_cases (rest : List UInt8) :
    (∃ digit more, rest.drop (countWhile isDigit rest) = byte '.' :: digit :: more ∧
      isDigit digit = true ∧
      numberLength rest = countWhile isDigit rest + (2 + countWhile isDigit more)) ∨
    (numberLength rest = countWhile isDigit rest ∧
      ∀ digit more, rest.drop (countWhile isDigit rest) = byte '.' :: digit :: more →
        isDigit digit = false) := by
  unfold numberLength
  simp only
  split
  · next point digit more hdrop =>
    split
    · next h =>
      rw [Bool.and_eq_true, beq_iff_eq] at h
      exact .inl ⟨digit, more, by rw [hdrop, h.1], h.2, Nat.add_assoc _ _ _⟩
    · next h =>
      refine .inr ⟨rfl, fun digit' more' hsame => ?_⟩
      rw [hdrop, List.cons.injEq, List.cons.injEq] at hsame
      obtain ⟨rfl, rfl, rfl⟩ := hsame
      simpa using h
  · next h =>
    exact .inr ⟨rfl, fun digit more hdrop => absurd hdrop (h _ _ _)⟩

theorem numberLength_le : numberLength rest ≤ rest.length := by
  rcases numberLength_cases rest with ⟨digit, more, hdrop, _, hlength⟩ | ⟨hlength, _⟩
  · have hcount : countWhile isDigit more ≤ more.length := countWhile_le
    have hsame := congrArg List.length hdrop
    rw [List.length_drop, List.length_cons, List.length_cons] at hsame
    omega
  · rw [hlength]
    exact countWhile_le

theorem longest_number (hb : isDigit b = true) :
    Longest IsNumber (b :: rest.take (numberLength rest)) (rest.drop (numberLength rest)) := by
  have hlonger : ∀ other, other <+: b :: rest → IsDigits other →
      other.length ≤ countWhile isDigit rest + 1 := by
    intro other hother hdigits
    have hlength := length_le_countWhile hother hdigits.2
    rwa [countWhile, if_pos hb] at hlength
  have hlength : (b :: rest.take (numberLength rest)).length = numberLength rest + 1 := by
    rw [List.length_cons, List.length_take, Nat.min_eq_left numberLength_le]
  unfold Longest
  rw [List.cons_append, List.take_append_drop, hlength]
  -- A point belongs to the number only where a digit follows it.
  rcases numberLength_cases rest with ⟨digit, more, hdrop, hdigit, hcount⟩ | ⟨hcount, hnone⟩
  · rw [hcount]
    refine ⟨?_, ?_⟩
    · rw [List.take_add, hdrop, Nat.add_comm, List.take_succ_cons, List.take_succ_cons]
      exact .decimal (isDigits_take hb) (isDigits_take hdigit)
    · intro other hother hnumber
      cases hnumber with
      | whole hdigits =>
        have := hlonger other hother hdigits
        omega
      | @decimal digits decimals hdigits hdecimals =>
        obtain ⟨hwhole, hpoint⟩ := digits_before_point hb hdigits hother
        rw [hdrop] at hpoint
        have hrest := length_le_countWhile (List.cons_prefix_cons.mp hpoint).2 hdecimals.2
        rw [countWhile, if_pos hdigit] at hrest
        rw [List.length_append, List.length_cons]
        omega
  · rw [hcount]
    refine ⟨.whole (isDigits_take hb), ?_⟩
    intro other hother hnumber
    cases hnumber with
    | whole hdigits => exact hlonger other hother hdigits
    | @decimal digits decimals hdigits hdecimals =>
      obtain ⟨_, vs, hvs⟩ := digits_before_point hb hdigits hother
      obtain ⟨digit, more, rfl⟩ := List.exists_cons_of_ne_nil hdecimals.1
      have hfalse := hnone digit (more ++ vs) hvs.symm
      rw [hdecimals.2 digit List.mem_cons_self] at hfalse
      cases hfalse

/-! ## Symbols -/

theorem char_ofUInt8_eq {b : UInt8} {c : Char} (h : Char.ofUInt8 b = c) : b = byte c := by
  rw [← h]
  unfold byte Char.toUInt8 Char.ofUInt8
  simp

/-- A byte that stands for a symbol spells it. -/
theorem encode_spelling {s : Symbol} (h : symbol? b = some s) :
    Utf8.encode s.spelling = [b] := by
  obtain ⟨c, hc, hs⟩ := Option.bind_eq_some_iff.mp h
  unfold ascii? at hc
  split at hc
  · obtain rfl := char_ofUInt8_eq (Option.some.inj hc)
    unfold Symbol.ofChar? at hs
    split at hs
    all_goals first
      | cases hs; decide
      | cases hs
  · cases hc

/-- A symbol is a single byte, or one that a byte stands for with an `=` behind it. -/
theorem encode_spelling_cases (s : Symbol) :
    (∃ b, Utf8.encode s.spelling = [b] ∧ symbol? b = some s) ∨
      ∃ shorter : Symbol, shorter.withEqual? = some s ∧
        Utf8.encode s.spelling = Utf8.encode shorter.spelling ++ [byte '='] := by
  cases s
  case bangEqual => exact .inr ⟨.bang, rfl, by decide⟩
  case equalEqual => exact .inr ⟨.equal, rfl, by decide⟩
  case greaterEqual => exact .inr ⟨.greater, rfl, by decide⟩
  case lessEqual => exact .inr ⟨.less, rfl, by decide⟩
  all_goals exact .inl ⟨_, rfl, by decide⟩

theorem symbol?_of_withEqual {s longer : Symbol} (h : s.withEqual? = some longer) :
    ∃ b, Utf8.encode s.spelling = [b] ∧ symbol? b = some s := by
  rcases encode_spelling_cases s with hs | ⟨shorter, hs, _⟩
  · exact hs
  · cases shorter <;> cases hs <;> cases h

/-- A symbol that is a single byte is the longest one in front of what cannot be added to it. -/
theorem longest_symbol {s : Symbol} (hb : symbol? b = some s)
    (h : ∀ longer, s.withEqual? = some longer → rest.head? ≠ some (byte '=')) :
    Longest IsSymbol (Utf8.encode s.spelling) rest := by
  refine ⟨⟨s, rfl⟩, ?_⟩
  rintro _ hother ⟨s', rfl⟩
  rw [encode_spelling hb, List.singleton_append] at hother
  rw [encode_spelling hb]
  rcases encode_spelling_cases s' with ⟨b', hb', _⟩ | ⟨shorter, hlonger, hspelling⟩
  · rw [hb']
    simp
  · obtain ⟨b', hb', hshorter⟩ := symbol?_of_withEqual hlonger
    rw [hspelling, hb', List.singleton_append, List.cons_prefix_cons] at hother
    obtain ⟨rfl, vs, hvs⟩ := hother
    rw [hb] at hshorter
    obtain rfl := Option.some.inj hshorter
    refine absurd ?_ (h s' hlonger)
    rw [← hvs]
    rfl

/-- No symbol has more than two bytes. -/
theorem longest_withEqual {s longer : Symbol} (h : s.withEqual? = some longer) :
    Longest IsSymbol (Utf8.encode longer.spelling) rest := by
  refine ⟨⟨longer, rfl⟩, ?_⟩
  rintro _ _ ⟨s', rfl⟩
  cases s <;> cases h <;> cases s' <;> decide

/-! ## Texts and comments -/

theorem quote_of_byte {q : Quote} (h : quote? b = some q) : b = byte q.char := by
  obtain ⟨c, hc, hq⟩ := Option.bind_eq_some_iff.mp h
  unfold ascii? at hc
  split at hc
  · obtain rfl := char_ofUInt8_eq (Option.some.inj hc)
    unfold Quote.ofChar? at hq
    split at hq
    all_goals first
      | cases hq; rfl
      | cases hq
  · cases hc

theorem not_mem_take_countWhile {c : UInt8} {xs : List UInt8} :
    c ∉ xs.take (countWhile (· != c) xs) := by
  intro hc
  have h := of_mem_take_countWhile c hc
  simp at h

theorem countWhile_eq_length {p : UInt8 → Bool} {xs : List UInt8}
    (h : ¬countWhile p xs < xs.length) : countWhile p xs = xs.length :=
  Nat.le_antisymm countWhile_le (Nat.le_of_not_lt h)

/-- Behind the bytes before the first one of a kind comes that one. -/
theorem take_countWhile_succ {c : UInt8} {xs : List UInt8}
    (h : countWhile (· != c) xs < xs.length) :
    xs.take (countWhile (· != c) xs + 1) = xs.take (countWhile (· != c) xs) ++ [c] := by
  have hnext : xs[countWhile (· != c) xs] = c := by
    have hhead := of_mem_drop_countWhile (p := (· != c)) xs[countWhile (· != c) xs] (by
      rw [List.head?_drop, List.getElem?_eq_getElem h]
      rfl)
    simpa using hhead
  rw [List.take_add_one, List.getElem?_eq_getElem h, hnext]
  rfl

theorem fits_text (q : Quote) :
    let next := classifyText q rest
    Fits next.content (byte q.char :: rest.take next.length) (rest.drop next.length) := by
  unfold classifyText
  simp only
  split
  · next hlength =>
    rw [take_countWhile_succ hlength]
    exact .text not_mem_take_countWhile
  · next hlength =>
    rw [List.take_length, List.drop_length]
    refine .openText fun hmem => ?_
    have htake : rest.take (countWhile (· != byte q.char) rest) = rest := by
      rw [countWhile_eq_length hlength, List.take_length]
    rw [← htake] at hmem
    exact not_mem_take_countWhile hmem

/-- A comment between marks ends at the first mark of its end. -/
theorem commentLength?_eq_some {xs : List UInt8} {length : Nat}
    (h : commentLength? xs = some length) :
    ∃ body, xs.take length = body ++ commentEnd ∧ ¬commentEnd <:+: body ++ [byte '*'] := by
  induction xs generalizing length with
  | nil => cases h
  | cons b rest ih =>
    unfold commentLength? at h
    split at h
    · next hend =>
      rw [Bool.and_eq_true, beq_iff_eq, beq_iff_eq] at hend
      obtain ⟨rfl, hhead⟩ := hend
      cases h
      obtain ⟨vs, rfl⟩ := List.head?_eq_some_iff.mp hhead
      exact ⟨[], rfl, by decide⟩
    · next hend =>
      obtain ⟨length', hlength, rfl⟩ := Option.map_eq_some_iff.mp h
      obtain ⟨body, htake, hbody⟩ := ih hlength
      refine ⟨b :: body, by rw [List.take_succ_cons, htake, List.cons_append], ?_⟩
      rw [List.cons_append, List.infix_cons_iff]
      rintro (hmark | hlater)
      · refine hend ?_
        rw [commentEnd, List.cons_prefix_cons] at hmark
        obtain ⟨rfl, hslash⟩ := hmark
        -- The mark would begin with `b` and go on with the first byte of what follows.
        have hhead : rest.head? = some (byte '/') := by
          have hfirst : (body ++ commentEnd).head? = some (byte '/') := by
            cases body with
            | nil => exact absurd hslash (by decide)
            | cons c body =>
              rw [List.cons_append, List.cons_prefix_cons] at hslash
              rw [List.cons_append, ← hslash.1]
              rfl
          rw [← htake, List.head?_take] at hfirst
          split at hfirst
          · cases hfirst
          · exact hfirst
        simp [hhead]
      · exact hbody hlater

theorem commentLength?_eq_none {xs : List UInt8} (h : commentLength? xs = none) :
    ¬commentEnd <:+: xs := by
  induction xs with
  | nil => simp [commentEnd]
  | cons b rest ih =>
    unfold commentLength? at h
    split at h
    · cases h
    · next hend =>
      rw [List.infix_cons_iff]
      rintro (hmark | hlater)
      · refine hend ?_
        rw [commentEnd, List.cons_prefix_cons] at hmark
        obtain ⟨rfl, vs, rfl⟩ := hmark
        rfl
      · exact ih (Option.map_eq_none_iff.mp h) hlater

theorem fits_slash :
    let next := classifySlash rest
    Fits next.content (byte '/' :: rest.take next.length) (rest.drop next.length) := by
  have hslash : symbol? (byte '/') = some .slash := by decide
  unfold classifySlash
  -- What follows decides: the rest of the line, a comment up to its end, or the symbol alone.
  split
  · exact .symbol (longest_symbol hslash fun _ h => by cases h) fun _ => by simp
  · next next more =>
    split
    · next hnext =>
      obtain rfl := beq_iff_eq.mp hnext
      have hcount : countWhile (· != byte '\n') (byte '/' :: more) =
          countWhile (· != byte '\n') more + 1 := by
        rw [countWhile, if_pos (by decide)]
      simp only [hcount, List.take_succ_cons, List.drop_succ_cons]
      refine .lineComment not_mem_take_countWhile fun b hb => ?_
      have hhead := of_mem_drop_countWhile b hb
      simpa using hhead
    · split
      · next hnext =>
        obtain rfl := beq_iff_eq.mp hnext
        split
        · next length hlength =>
          obtain ⟨body, htake, hbody⟩ := commentLength?_eq_some hlength
          simp only [List.take_succ_cons, List.drop_succ_cons, htake]
          exact .blockComment hbody
        · next hlength =>
          simp only [List.take_length, List.drop_length]
          exact .openComment (commentLength?_eq_none hlength)
      · next hline hblock =>
        refine .symbol (longest_symbol hslash fun _ h => by cases h) fun _ => ?_
        simp only [List.drop_zero, List.head?_cons, ne_eq, Option.some.injEq]
        rw [beq_iff_eq] at hline hblock
        exact ⟨hline, hblock⟩

theorem fits_symbol {s : Symbol} (hb : symbol? b = some s) (hs : s ≠ .slash) :
    let next := classifySymbol s rest
    Fits next.content (b :: rest.take next.length) (rest.drop next.length) := by
  have hshort : (∀ longer, s.withEqual? = some longer → rest.head? ≠ some (byte '=')) →
      Fits (.token (.symbol s)) [b] rest := by
    intro h
    rw [← encode_spelling hb]
    exact .symbol (longest_symbol hb h) fun hslash => absurd hslash hs
  unfold classifySymbol
  split
  · next longer hlonger =>
    split
    · next hequal =>
      obtain ⟨vs, rfl⟩ := List.head?_eq_some_iff.mp (beq_iff_eq.mp hequal)
      -- A symbol with `=` is spelled as the shorter one with an `=` behind it.
      have hspelling : Utf8.encode longer.spelling = [b, byte '='] := by
        rcases encode_spelling_cases longer with ⟨b', _, hb'⟩ | ⟨shorter, hshorter, hspelling⟩
        · obtain ⟨c, hc, hsame⟩ := Option.bind_eq_some_iff.mp hb'
          cases s <;> cases hlonger <;> (unfold Symbol.ofChar? at hsame; split at hsame <;> cases hsame)
        · obtain ⟨b', hspelled, hb'⟩ := symbol?_of_withEqual hlonger
          have hsame : shorter = s := by
            cases s <;> cases hlonger <;> cases shorter <;> first | rfl | cases hshorter
          rw [hspelling, hsame, encode_spelling hb]
          rfl
      show Fits (.token (.symbol longer)) [b, byte '='] vs
      rw [← hspelling]
      exact .symbol (longest_withEqual hlonger) fun hslash => by
        cases s <;> cases hlonger <;> cases hslash
    · next hequal =>
      exact hshort fun _ _ hhead => hequal (by simp [hhead])
  · next hnone =>
    refine hshort fun longer hlonger => ?_
    rw [hnone] at hlonger
    cases hlonger

/-! ## What can begin -/

theorem opens_iff : Opens b ↔ startsTile b = true := by
  unfold startsTile isWordByte
  simp only [Bool.or_eq_true]
  constructor
  · rintro (h | h | h | h | ⟨q, rfl⟩)
    · exact .inr h
    · cases h with
      | mk first _ => exact .inl (.inr (.inl first))
    · refine .inl (.inr (.inr ?_))
      -- With or without a fraction, a number begins with a digit.
      generalize hbytes : b :: _ = bytes at h
      cases h with
      | whole h =>
        subst hbytes
        exact h.2 b List.mem_cons_self
      | @decimal digits decimals h _ =>
        obtain ⟨digit, digits, rfl⟩ := List.exists_cons_of_ne_nil h.1
        rw [List.cons_append, List.cons.injEq] at hbytes
        rw [hbytes.1]
        exact h.2 digit List.mem_cons_self
    · obtain ⟨s, hs⟩ := h
      refine .inl (.inl (.inl ?_))
      rcases encode_spelling_cases s with ⟨b', hb', hsymbol⟩ | ⟨shorter, hlonger, hspelling⟩
      · rw [hb', List.cons.injEq] at hs
        rw [hs.1, hsymbol]
        rfl
      · obtain ⟨b', hb', hsymbol⟩ := symbol?_of_withEqual hlonger
        rw [hspelling, hb', List.singleton_append, List.cons.injEq] at hs
        rw [hs.1, hsymbol]
        rfl
    · refine .inl (.inl (.inr ?_))
      cases q <;> decide
  · rintro (((h | h) | h | h) | h)
    · obtain ⟨s, hs⟩ := Option.isSome_iff_exists.mp h
      exact .symbol ⟨s, (encode_spelling hs).symm⟩
    · obtain ⟨q, hq⟩ := Option.isSome_iff_exists.mp h
      exact .quote q (quote_of_byte hq)
    · exact .word (.mk h (by simp) : IsWord [b])
    · exact .number (.whole ⟨by simp, by simpa using h⟩ : IsNumber [b])
    · exact .blank h

theorem fits_unexpected (hb : startsTile b = false) :
    Fits (.fault (.unexpected (Utf8.decode
      (b :: rest.take (countWhile (fun c => !startsTile c) rest)))))
      (b :: rest.take (countWhile (fun c => !startsTile c) rest))
      (rest.drop (countWhile (fun c => !startsTile c) rest)) := by
  refine .unexpected (fun c hc => ?_) fun c hc => ?_
  · rw [opens_iff, Bool.not_eq_true]
    rcases List.mem_cons.mp hc with rfl | hc
    · exact hb
    · simpa using of_mem_take_countWhile c hc
  · rw [opens_iff]
    simpa using of_mem_drop_countWhile c hc

/-- A tile is what its first byte and those behind it make it, up to where it ends. -/
theorem fits_classify (b : UInt8) (rest : List UInt8) :
    Fits (classify b rest).content (b :: rest.take (classify b rest).length)
      (rest.drop (classify b rest).length) := by
  unfold classify
  split
  · next hblank => exact .blank hblank
  · next hblank =>
    split
    · next hdigit => exact .number (longest_number hdigit)
    · next hdigit =>
      split
      · next hword => exact .word (longest_word hword)
      · next hword =>
        cases hquote : quote? b with
        | some q =>
          obtain rfl := quote_of_byte hquote
          exact fits_text q
        | none =>
          cases hsymbol : symbol? b with
          | some s =>
            cases s
            case slash =>
              have hspelling : [byte '/'] = [b] := encode_spelling hsymbol
              obtain rfl := (List.cons.inj hspelling).1
              exact fits_slash
            all_goals exact fits_symbol hsymbol (by decide)
          | none =>
            refine fits_unexpected ?_
            simp [startsTile, isWordByte, hsymbol, hquote, hblank, hdigit, hword]

/-! ## Newlines -/

theorem countNewlines_eq (bytes : List UInt8) :
    countNewlines bytes = bytes.count (byte '\n') := by
  suffices h : ∀ n, bytes.foldl (fun n b => if b == byte '\n' then n + 1 else n) n =
      n + bytes.count (byte '\n') by
    simpa [countNewlines] using h 0
  induction bytes with
  | nil => simp
  | cons b rest ih =>
    intro n
    rw [List.foldl_cons, ih, List.count_cons]
    split <;> omega

/-- Bytes of a kind to which no newline belongs. -/
theorem count_newline_eq_zero {p : UInt8 → Bool} {bytes : List UInt8}
    (h : ∀ c ∈ bytes, p c = true) (hp : p (byte '\n') = false) :
    bytes.count (byte '\n') = 0 := by
  refine List.count_eq_zero.mpr fun hmem => ?_
  rw [h _ hmem] at hp
  cases hp

theorem IsNumber.count_newline {bytes : List UInt8} (h : IsNumber bytes) :
    bytes.count (byte '\n') = 0 := by
  have hdigits : ∀ {digits}, IsDigits digits → digits.count (byte '\n') = 0 :=
    fun h => count_newline_eq_zero h.2 (by decide)
  cases h with
  | whole h => exact hdigits h
  | decimal h h' =>
    rw [List.count_append, List.count_cons, hdigits h, hdigits h']
    decide

theorem newlines_symbol {s : Symbol} (hb : symbol? b = some s) :
    (classifySymbol s rest).newlines =
      (b :: rest.take (classifySymbol s rest).length).count (byte '\n') := by
  have hbyte : (b == byte '\n') = false := by
    rw [beq_eq_false_iff_ne]
    rintro rfl
    revert hb
    decide +revert
  unfold classifySymbol
  split
  · split
    · next hequal =>
      obtain ⟨more, rfl⟩ := List.head?_eq_some_iff.mp (beq_iff_eq.mp hequal)
      simp only [List.take_succ_cons, List.take_zero, List.count_cons, hbyte]
      decide
    · simp [List.count_cons, hbyte]
  · simp [List.count_cons, hbyte]

theorem newlines_slash :
    (classifySlash rest).newlines =
      (byte '/' :: rest.take (classifySlash rest).length).count (byte '\n') := by
  have hslash : (byte '/' == byte '\n') = false := by decide
  have hstar : (byte '*' == byte '\n') = false := by decide
  unfold classifySlash
  split
  · simp [List.count_cons, hslash]
  · next next more =>
    split
    · rw [List.count_cons, hslash, List.count_eq_zero.mpr not_mem_take_countWhile]
      rfl
    · split
      · next hnext =>
        obtain rfl := beq_iff_eq.mp hnext
        split <;> simp [List.count_cons, hslash, hstar, countNewlines_eq]
      · simp [List.count_cons, hslash]

theorem newlines_text (q : Quote) :
    (classifyText q rest).newlines =
      (byte q.char :: rest.take (classifyText q rest).length).count (byte '\n') := by
  have hquote : (byte q.char == byte '\n') = false := by cases q <;> decide
  unfold classifyText
  simp only [countNewlines_eq]
  split
  · next hlength =>
    simp [take_countWhile_succ hlength, List.count_append, List.count_cons, hquote]
  · next hlength =>
    rw [countWhile_eq_length hlength, List.count_cons, hquote]
    rfl

/-- Where a tile is cut off, all the newlines in it have been counted. -/
theorem newlines_classify (b : UInt8) (rest : List UInt8) :
    (classify b rest).newlines =
      (b :: rest.take (classify b rest).length).count (byte '\n') := by
  unfold classify
  split
  · rw [List.take_zero, List.count_singleton]
  next hblank =>
  split
  · next hdigit => exact (longest_number hdigit).1.count_newline.symm
  next hdigit =>
  split
  · next hword =>
    refine (count_newline_eq_zero (p := isWordByte) (fun c hc => ?_) (by decide)).symm
    rcases List.mem_cons.mp hc with rfl | hc
    · simp [isWordByte, hword]
    · exact of_mem_take_countWhile c hc
  next hword =>
  cases hquote : quote? b with
  | some q =>
    obtain rfl := quote_of_byte hquote
    exact newlines_text q
  | none =>
    cases hsymbol : symbol? b with
    | some s =>
      cases s
      case slash =>
        have hspelling : [byte '/'] = [b] := encode_spelling hsymbol
        obtain rfl := (List.cons.inj hspelling).1
        exact newlines_slash
      all_goals exact newlines_symbol hsymbol
    | none =>
      refine (count_newline_eq_zero (p := fun c => !startsTile c) (fun c hc => ?_) (by decide)).symm
      rcases List.mem_cons.mp hc with rfl | hc
      · simp [startsTile, isWordByte, hsymbol, hquote, hblank, hdigit, hword]
      · exact of_mem_take_countWhile c hc

/-! ## Lexemes -/

theorem spelling_of_ofSpelling? {word : String} {k : Keyword}
    (h : Keyword.ofSpelling? word = some k) : k.spelling = word := by
  unfold Keyword.ofSpelling? at h
  split at h <;> cases h <;> rfl

theorem decode_quoted (q : Quote) (contents : List UInt8) :
    Utf8.decode (byte q.char :: (contents ++ [byte q.char])) =
      q.char.toString ++ Utf8.decode contents ++ q.char.toString := by
  have hascii : byte q.char < 0x80 := by cases q <;> decide
  have hchar : Char.ofUInt8 (byte q.char) = q.char := by cases q <;> decide
  have hnil : Utf8.decode [] = "" := rfl
  have hopen := Utf8.decode_ascii [] hascii (contents ++ [byte q.char])
  rw [List.nil_append, Utf8.decode_ascii contents hascii [], hchar, hnil, String.empty_append,
    String.append_empty] at hopen
  rw [hopen, String.append_assoc]

/-- The lexeme of a token is the text of its bytes. -/
theorem Fits.lexeme {kind : Token.Kind} {bytes : List UInt8}
    (h : Fits (.token kind) bytes rest) : kind.lexeme = Utf8.decode bytes ∧ kind ≠ .eof := by
  cases h with
  | word h =>
    unfold wordKind
    simp only
    split
    · next k hk => exact ⟨spelling_of_ofSpelling? hk, by simp⟩
    · exact ⟨rfl, by simp⟩
  | number h => exact ⟨rfl, by simp⟩
  | @symbol s _ h _ =>
    refine ⟨?_, by simp⟩
    cases s <;> decide
  | text h => exact ⟨(decode_quoted _ _).symm, by simp⟩

/-! ## Runs of unexpected bytes -/

/-- Whether bytes are a text or a comment, or would be one if they came to an end. -/
def Encloses (bytes : List UInt8) : Prop :=
  (∃ q : Quote, bytes.head? = some (byte q.char)) ∨ [byte '/', byte '/'] <+: bytes ∨
    [byte '/', byte '*'] <+: bytes

theorem IsWord.opens {bytes : List UInt8} (h : IsWord bytes) : ∀ c ∈ bytes, Opens c := by
  cases h with
  | mk first others =>
    intro c hc
    rw [opens_iff]
    have hword : isWordByte c = true := by
      rcases List.mem_cons.mp hc with rfl | hc
      · simp [isWordByte, first]
      · exact others c hc
    simp [startsTile, hword]

theorem IsDigits.opens {bytes : List UInt8} (h : IsDigits bytes) : ∀ c ∈ bytes, Opens c :=
  fun c hc => .number (.whole ⟨by simp, by simpa using h.2 c hc⟩ : IsNumber [c])

theorem IsNumber.opens {bytes : List UInt8} (h : IsNumber bytes) : ∀ c ∈ bytes, Opens c := by
  cases h with
  | whole h => exact h.opens
  | @decimal digits decimals h h' =>
    intro c hc
    rcases List.mem_append.mp hc with hc | hc
    · exact h.opens c hc
    · rcases List.mem_cons.mp hc with rfl | hc
      · exact opens_iff.mpr (by decide)
      · exact h'.opens c hc

theorem IsSymbol.opens {bytes : List UInt8} (h : IsSymbol bytes) : ∀ c ∈ bytes, Opens c := by
  obtain ⟨s, rfl⟩ := h
  have hall : (Utf8.encode s.spelling).all startsTile = true := by cases s <;> rfl
  exact fun c hc => opens_iff.mpr (List.all_eq_true.mp hall c hc)

theorem Fits.ne_nil {content : Content} {bytes : List UInt8} (h : Fits content bytes rest) :
    bytes ≠ [] := by
  cases h with
  | word h =>
    obtain ⟨⟨_, _⟩, _⟩ := h
    simp
  | number h =>
    obtain ⟨hnumber, _⟩ := h
    cases hnumber with
    | whole h => exact h.1
    | decimal _ _ => simp
  | @symbol s _ _ _ => cases s <;> decide
  | _ => simp

/-- Outside of texts and comments, a byte that begins nothing is part of a fault that reaches up to
the next byte that begins something. -/
theorem Fits.run {content : Content} {bytes : List UInt8} (h : Fits content bytes rest)
    (hopen : ¬Encloses bytes) {c : UInt8} (hmem : c ∈ bytes) (hc : ¬Opens c) :
    content = .fault (.unexpected (Utf8.decode bytes)) ∧ (∀ b ∈ bytes, ¬Opens b) ∧
      ∀ b ∈ rest.head?, Opens b := by
  cases h with
  | word h => exact absurd (h.1.opens c hmem) hc
  | number h => exact absurd (h.1.opens c hmem) hc
  | symbol h _ => exact absurd (h.1.opens c hmem) hc
  | @text q _ _ _ => exact absurd (.inl ⟨q, rfl⟩) hopen
  | blank h =>
    obtain rfl := List.mem_singleton.mp hmem
    exact absurd (.blank h) hc
  | lineComment _ _ => exact absurd (.inr (.inl ⟨_, rfl⟩)) hopen
  | blockComment _ => exact absurd (.inr (.inr ⟨_, rfl⟩)) hopen
  | unexpected h ends => exact ⟨rfl, h, ends⟩
  | @openText q _ _ => exact absurd (.inl ⟨q, rfl⟩) hopen
  | openComment _ => exact absurd (.inr (.inr ⟨_, rfl⟩)) hopen

/-- In front of a byte that begins nothing a tile ends with one that begins something. -/
theorem Fits.last {content : Content} {bytes : List UInt8} (h : Fits content bytes rest)
    {c : UInt8} (hmem : c ∈ rest.head?) (hc : ¬Opens c) : ∀ b ∈ bytes.getLast?, Opens b := by
  intro b hb
  have hlast : b ∈ bytes := List.mem_of_getLast? hb
  cases h with
  | word h => exact h.1.opens b hlast
  | number h => exact h.1.opens b hlast
  | symbol h _ => exact h.1.opens b hlast
  | @text q contents _ _ =>
    rw [← List.cons_append, List.getLast?_append] at hb
    exact .quote q (Option.some.inj hb).symm
  | blank h =>
    obtain rfl := List.mem_singleton.mp hlast
    exact .blank h
  | lineComment _ ends =>
    rw [ends c hmem] at hc
    exact absurd (.blank (by decide)) hc
  | @blockComment body _ _ =>
    rw [← List.cons_append, ← List.cons_append, List.getLast?_append] at hb
    obtain rfl := Option.some.inj hb
    exact opens_iff.mpr (by decide)
  | unexpected _ ends => exact absurd (ends c hmem) hc
  | openText _ => cases hmem
  | openComment _ => cases hmem

/-! ## The tiles of a source -/

theorem tiles_cons (b : UInt8) (rest : List UInt8) :
    tiles (b :: rest) = (classify b rest).tile b rest ::
      tiles (rest.drop (classify b rest).length) := by
  unfold tiles
  rw [tilesAfter, tilesAfter_eq_drop]

/-- Each tile of a source fits what follows it. -/
theorem fits_tiles {source : List UInt8} {before after : List Tile} {t : Tile}
    (h : tiles source = before ++ t :: after) :
    Fits t.content t.bytes (after.flatMap Tile.bytes) := by
  induction before generalizing source with
  | nil =>
    cases source with
    | nil => cases h
    | cons b rest =>
      rw [tiles_cons] at h
      obtain ⟨rfl, rfl⟩ := List.cons.inj h
      rw [flatMap_bytes_tiles]
      exact fits_classify b rest
  | cons first before ih =>
    cases source with
    | nil => cases h
    | cons b rest =>
      rw [tiles_cons, List.cons_append] at h
      exact ih (List.cons.inj h).2

/-- In front of a tile none of whose bytes begins anything, the source ends with a byte that begins
something. -/
theorem opens_before {source : List UInt8} {before after : List Tile} {t : Tile}
    (h : tiles source = before ++ t :: after) (hall : ∀ b ∈ t.bytes, ¬Opens b) :
    ∀ b ∈ (before.flatMap Tile.bytes).getLast?, Opens b := by
  rcases List.eq_nil_or_concat before with rfl | ⟨first, u, rfl⟩
  · intro b hb
    cases hb
  · rw [List.concat_eq_append, List.append_assoc] at h
    have hfits : Fits u.content u.bytes ((t :: after).flatMap Tile.bytes) := fits_tiles h
    have hbytes := (fits_tiles (h.trans (List.append_assoc first [u] (t :: after)).symm)).ne_nil
    obtain ⟨c, others, hc⟩ := List.exists_cons_of_ne_nil hbytes
    rw [List.flatMap_cons, hc] at hfits
    have hlast := hfits.last rfl (hall c (by simp [hc]))
    rw [List.getLast?_eq_some_getLast hfits.ne_nil] at hlast
    rwa [List.concat_eq_append, List.flatMap_append, List.flatMap_singleton,
      List.getLast?_append, List.getLast?_eq_some_getLast hfits.ne_nil, Option.some_or]

/-- The item of a tile that ends on a line, if the tile is not skipped. -/
def item? (t : Tile) (line : Nat) : Option Item :=
  match t.content with
  | .token kind => some (.token ⟨kind, line⟩)
  | .skipped => none
  | .fault f => some (.fault line f)

/-- The newlines of a tile are those of its bytes. -/
theorem newlines_of_mem_tiles {source : List UInt8} :
    ∀ t ∈ tiles source, t.newlines = t.bytes.count (byte '\n') := by
  induction hlength : source.length using Nat.strongRecOn generalizing source with
  | ind n ih =>
    cases source with
    | nil => nofun
    | cons b rest =>
      intro t ht
      rw [tiles_cons] at ht
      rcases List.mem_cons.mp ht with rfl | ht
      · exact newlines_classify b rest
      · refine ih _ ?_ rfl t ht
        simp only [← hlength, List.length_drop, List.length_cons]
        omega

theorem ofTiles_eq (line : Nat) (ts : List Tile)
    (h : ∀ t ∈ ts, t.newlines = t.bytes.count (byte '\n')) :
    Item.ofTiles line ts =
      (ts.mapIdx fun i t =>
        t.item? (line + ((ts.take (i + 1)).flatMap Tile.bytes).count (byte '\n'))).filterMap id ++
      [.token ⟨.eof, line + (ts.flatMap Tile.bytes).count (byte '\n')⟩] := by
  induction ts generalizing line with
  | nil => rfl
  | cons t ts ih =>
    have hrest := ih (line + t.newlines) fun t' ht' => h t' (List.mem_cons_of_mem t ht')
    rw [h t List.mem_cons_self] at hrest
    simp only [Nat.add_assoc] at hrest
    unfold Item.ofTiles
    simp only [List.mapIdx_cons, List.take_succ_cons, List.flatMap_cons, List.count_append,
      List.take_zero, List.flatMap_nil, h t List.mem_cons_self]
    unfold item? at *
    cases hcontent : t.content <;> simp [hrest]

end Tile

/-- A tile that is a token has the lexeme of its bytes, and is no end mark. -/
theorem lexeme_of_mem_tiles {source : List UInt8} {t : Tile} (ht : t ∈ tiles source) {kind : Token.Kind}
    (hkind : t.content = .token kind) : kind.lexeme = Utf8.decode t.bytes ∧ kind ≠ .eof := by
  obtain ⟨before, after, h⟩ := List.append_of_mem ht
  have hfits := Tile.fits_tiles h
  rw [hkind] at hfits
  exact hfits.lexeme

/-! ## Exact tilings -/

/-- How the tiles of a source cover it, and which items they are. -/
structure ExactTiling (source : List UInt8) (ts : List Tile) (items : List Item) : Prop where
  /-- The ranges of the tiles follow each other from the start of the source to its end. -/
  covers : ts.flatMap Tile.bytes = source
  nonempty : ∀ t ∈ ts, t.bytes ≠ []
  fits : ∀ before t after, ts = before ++ t :: after →
    Tile.Fits t.content t.bytes (after.flatMap Tile.bytes)
  lexemes : ∀ t ∈ ts, ∀ kind, t.content = .token kind →
    kind.lexeme = Utf8.decode t.bytes ∧ kind ≠ .eof
  /-- A byte outside of texts and comments that begins nothing is part of a tile that is one fault.
  Its bytes are all those around that begin nothing. -/
  runs : ∀ before t after, ts = before ++ t :: after → ¬Tile.Encloses t.bytes →
    ∀ c ∈ t.bytes, ¬Tile.Opens c →
      t.content = .fault (.unexpected (Utf8.decode t.bytes)) ∧ (∀ b ∈ t.bytes, ¬Tile.Opens b) ∧
        (∀ b ∈ (after.flatMap Tile.bytes).head?, Tile.Opens b) ∧
        ∀ b ∈ (before.flatMap Tile.bytes).getLast?, Tile.Opens b
  /-- The items are those of the tiles, each on the line on which its tile ends, and behind them
  the end mark. -/
  items : items =
    (ts.mapIdx fun i t =>
      t.item? (1 + ((ts.take (i + 1)).flatMap Tile.bytes).count (byte '\n'))).filterMap id ++
    [.token ⟨.eof, 1 + source.count (byte '\n')⟩]

/-- Scanning is exact: the tiles of every source cover it, each is the one that the rules say, and
the items of a scanner are theirs, after which nothing more comes. -/
theorem exact_tiling (source : List UInt8) :
    ExactTiling source (tiles source) (scan source) ∧
      ∀ n, (Scanner.start source).nth n = (scan source)[n]? := by
  have hmem : ∀ t ∈ tiles source, ∃ rest, Tile.Fits t.content t.bytes rest := by
    intro t ht
    obtain ⟨before, after, h⟩ := List.append_of_mem ht
    exact ⟨_, Tile.fits_tiles h⟩
  refine ⟨?_, Scanner.nth_start source⟩
  refine
    { covers := flatMap_bytes_tiles source
      nonempty := ?_
      fits := fun before t after h => Tile.fits_tiles h
      lexemes := ?_
      runs := ?_
      items := ?_ }
  · intro t ht
    obtain ⟨rest, hfits⟩ := hmem t ht
    exact hfits.ne_nil
  · exact fun t ht kind hkind => lexeme_of_mem_tiles ht hkind
  · intro before t after h hopen c hc hnot
    have hfits := Tile.fits_tiles h
    obtain ⟨hcontent, hall, hnext⟩ := hfits.run hopen hc hnot
    exact ⟨hcontent, hall, hnext, Tile.opens_before h hall⟩
  · have hitems := Tile.ofTiles_eq 1 (tiles source) Tile.newlines_of_mem_tiles
    rw [flatMap_bytes_tiles] at hitems
    exact hitems

end LoxLang
