import LoxLang.Proofs.Text.Decoding

/-!
# What is encoded is decoded again

The bytes of a text are those of its characters, one after the other. Decoding them gives the text
back, and ASCII bytes are the bytes of what they are decoded to. What stands for bytes that encode
nothing is beyond ASCII, and so is a character of several bytes. So decoding brings no ASCII
character into a text whose byte is not there, and encoding brings no byte of one in.
-/

namespace LoxLang.Utf8

/-! ## The bytes of a text -/

theorem encode_ofList (cs : List Char) :
    encode (String.ofList cs) = cs.flatMap String.utf8EncodeChar := by
  unfold encode
  show (String.ofList cs).toByteArray.data.toList = _
  rw [String.toByteArray_ofList]
  show (cs.flatMap String.utf8EncodeChar).toByteArray.data.toList = _
  simp

theorem encode_eq (text : String) : encode text = text.toList.flatMap String.utf8EncodeChar := by
  rw [← encode_ofList, String.ofList_toList]

theorem encode_append (first second : String) :
    encode (first ++ second) = encode first ++ encode second := by
  simp [encode]

/-! ## Reading the bytes of a character -/

/-- The first byte of two. -/
theorem start_two {n : Nat} (h : 2 ≤ n) (h' : n < 32) :
    start (UInt8.ofNat (n + 192)) = ([], some ⟨n, 0, continuationLow, continuationHigh⟩) := by
  have hall : ∀ n < 32, 2 ≤ n →
      start (UInt8.ofNat (n + 192)) = ([], some ⟨n, 0, continuationLow, continuationHigh⟩) := by
    decide
  exact hall n h' h

/-- The first byte of three. -/
theorem start_three {n : Nat} (h : n < 16) :
    start (UInt8.ofNat (n + 224)) =
      ([], some ⟨n, 1, if n = 0 then 0xA0 else continuationLow,
        if n = 13 then 0x9F else continuationHigh⟩) := by
  have hall : ∀ n < 16, start (UInt8.ofNat (n + 224)) =
      ([], some ⟨n, 1, if n = 0 then 0xA0 else continuationLow,
        if n = 13 then 0x9F else continuationHigh⟩) := by
    decide
  exact hall n h

/-- The first byte of four. -/
theorem start_four {n : Nat} (h : n < 5) :
    start (UInt8.ofNat (n + 240)) =
      ([], some ⟨n, 2, if n = 0 then 0x90 else continuationLow,
        if n = 4 then 0x8F else continuationHigh⟩) := by
  have hall : ∀ n < 5, start (UInt8.ofNat (n + 240)) =
      ([], some ⟨n, 2, if n = 0 then 0x90 else continuationLow,
        if n = 4 then 0x8F else continuationHigh⟩) := by
    decide
  exact hall n h

/-- A byte that continues a character, with six bits of it. -/
theorem step_some {p : Pending} {m : Nat} (hm : m < 64) (hlow : p.low.toNat ≤ m + 128)
    (hhigh : m + 128 ≤ p.high.toNat) :
    step (some p) (UInt8.ofNat (m + 128)) =
      match p.later with
      | 0 => ([some (Char.ofNat (p.bits * 64 + m))], none)
      | later + 1 => ([], some ⟨p.bits * 64 + m, later, continuationLow, continuationHigh⟩) := by
  have hbyte : (UInt8.ofNat (m + 128)).toNat = m + 128 := by
    rw [UInt8.toNat_ofNat']
    omega
  have haccepts : p.accepts (UInt8.ofNat (m + 128)) = true := by
    unfold Pending.accepts
    simp only [Bool.and_eq_true, decide_eq_true_eq, UInt8.le_iff_toNat_le, hbyte]
    exact ⟨hlow, hhigh⟩
  have hbits : (UInt8.ofNat (m + 128)).toNat - 0x80 = m := by
    rw [hbyte]
    omega
  show (if p.accepts (UInt8.ofNat (m + 128)) then p.extend (UInt8.ofNat (m + 128)) else _) = _
  rw [if_pos haccepts]
  unfold Pending.extend
  generalize (UInt8.ofNat (m + 128)).toNat - 0x80 = bits at hbits ⊢
  subst hbits
  rfl

theorem unitsFrom_some (p : Pending) (b : UInt8) (rest : List UInt8) :
    unitsFrom (some p) (b :: rest) =
      (step (some p) b).1 ++ unitsFrom (step (some p) b).2 rest := rfl

theorem unitsFrom_none (b : UInt8) (rest : List UInt8) :
    unitsFrom none (b :: rest) = (start b).1 ++ unitsFrom (start b).2 rest := rfl

/-- The byte of an ASCII character. -/
theorem start_one {n : Nat} (h : n < 128) :
    start (UInt8.ofNat n) = ([some (Char.ofNat n)], none) := by
  have hall : ∀ n < 128, start (UInt8.ofNat n) = ([some (Char.ofNat n)], none) := by decide
  exact hall n h

/-- How many bytes a character has, and which bits of it they carry. -/
theorem encodeChar_cases (c : Char) :
    (c.toNat < 128 ∧ String.utf8EncodeChar c = [UInt8.ofNat c.toNat]) ∨
    (128 ≤ c.toNat ∧ c.toNat < 2048 ∧ String.utf8EncodeChar c =
      [UInt8.ofNat (c.toNat / 64 % 32 + 192), UInt8.ofNat (c.toNat % 64 + 128)]) ∨
    (2048 ≤ c.toNat ∧ c.toNat < 65536 ∧ String.utf8EncodeChar c =
      [UInt8.ofNat (c.toNat / 4096 % 16 + 224), UInt8.ofNat (c.toNat / 64 % 64 + 128),
        UInt8.ofNat (c.toNat % 64 + 128)]) ∨
    (65536 ≤ c.toNat ∧ String.utf8EncodeChar c =
      [UInt8.ofNat (c.toNat / 262144 % 8 + 240), UInt8.ofNat (c.toNat / 4096 % 64 + 128),
        UInt8.ofNat (c.toNat / 64 % 64 + 128), UInt8.ofNat (c.toNat % 64 + 128)]) := by
  have hval : c.val.toNat = c.toNat := rfl
  unfold String.utf8EncodeChar
  simp only [hval]
  by_cases hone : c.toNat ≤ 127
  · exact .inl ⟨by omega, if_pos hone⟩
  by_cases htwo : c.toNat ≤ 2047
  · exact .inr (.inl ⟨by omega, by omega, by rw [if_neg hone, if_pos htwo]⟩)
  by_cases hthree : c.toNat ≤ 65535
  · exact .inr (.inr (.inl ⟨by omega, by omega, by rw [if_neg hone, if_neg htwo, if_pos hthree]⟩))
  · exact .inr (.inr (.inr ⟨by omega, by rw [if_neg hone, if_neg htwo, if_neg hthree]⟩))

section

variable {v : Nat} (rest : List UInt8)

/-- A byte that continues a character but does not complete it. -/
theorem unitsFrom_continued {bits later m : Nat} {low high : UInt8} (hm : m < 64)
    (hlow : low.toNat ≤ m + 128) (hhigh : m + 128 ≤ high.toNat) :
    unitsFrom (some ⟨bits, later + 1, low, high⟩) (UInt8.ofNat (m + 128) :: rest) =
      unitsFrom (some ⟨bits * 64 + m, later, continuationLow, continuationHigh⟩) rest := by
  rw [unitsFrom_some, step_some hm hlow hhigh]
  rfl

/-- The last byte of a character of several bytes. -/
theorem unitsFrom_last {bits m : Nat} (hm : m < 64) :
    unitsFrom (some ⟨bits, 0, continuationLow, continuationHigh⟩) (UInt8.ofNat (m + 128) :: rest) =
      some (Char.ofNat (bits * 64 + m)) :: unitsFrom none rest := by
  have hlow : continuationLow.toNat ≤ m + 128 := Nat.le_add_left 128 m
  have hhigh : m + 128 ≤ continuationHigh.toNat := Nat.add_le_add_right (Nat.le_of_lt_succ hm) 128
  rw [unitsFrom_some, step_some hm hlow hhigh]
  rfl

theorem unitsFrom_two (h : 128 ≤ v) (h' : v < 2048) :
    unitsFrom none (UInt8.ofNat (v / 64 % 32 + 192) :: UInt8.ofNat (v % 64 + 128) :: rest) =
      some (Char.ofNat v) :: unitsFrom none rest := by
  have hvalue : v / 64 % 32 * 64 + v % 64 = v := by omega
  rw [unitsFrom_none, start_two (by omega) (by omega), List.nil_append,
    unitsFrom_last rest (by omega), hvalue]

/-- Of three bytes the second is narrowed where fewer would do, and where surrogates are. -/
theorem unitsFrom_three (h : 2048 ≤ v) (h' : v < 65536) (valid : v < 0xD800 ∨ 0xDFFF < v) :
    unitsFrom none (UInt8.ofNat (v / 4096 % 16 + 224) :: UInt8.ofNat (v / 64 % 64 + 128) ::
        UInt8.ofNat (v % 64 + 128) :: rest) =
      some (Char.ofNat v) :: unitsFrom none rest := by
  have hvalue : (v / 4096 % 16 * 64 + v / 64 % 64) * 64 + v % 64 = v := by omega
  have hlow : continuationLow.toNat = 128 := rfl
  have hhigh : continuationHigh.toNat = 191 := rfl
  have hover : (0xA0 : UInt8).toNat = 160 := rfl
  have hsurrogate : (0x9F : UInt8).toNat = 159 := rfl
  rw [unitsFrom_none, start_three (by omega), List.nil_append,
    unitsFrom_continued _ (by omega) (by split <;> omega) (by split <;> omega),
    unitsFrom_last rest (by omega), hvalue]

/-- Of four bytes the second is narrowed where fewer would do, and beyond the last code point. -/
theorem unitsFrom_four (h : 65536 ≤ v) (h' : v < 0x110000) :
    unitsFrom none (UInt8.ofNat (v / 262144 % 8 + 240) :: UInt8.ofNat (v / 4096 % 64 + 128) ::
        UInt8.ofNat (v / 64 % 64 + 128) :: UInt8.ofNat (v % 64 + 128) :: rest) =
      some (Char.ofNat v) :: unitsFrom none rest := by
  have hvalue : ((v / 262144 % 8 * 64 + v / 4096 % 64) * 64 + v / 64 % 64) * 64 + v % 64 = v := by
    omega
  have hlow : continuationLow.toNat = 128 := rfl
  have hhigh : continuationHigh.toNat = 191 := rfl
  have hover : (0x90 : UInt8).toNat = 144 := rfl
  have hbeyond : (0x8F : UInt8).toNat = 143 := rfl
  rw [unitsFrom_none, start_four (by omega), List.nil_append,
    unitsFrom_continued _ (by omega) (by split <;> omega) (by split <;> omega),
    unitsFrom_continued _ (by omega) (by omega) (by omega), unitsFrom_last rest (by omega), hvalue]

end

/-- The bytes of a character read give this character. -/
theorem unitsFrom_char (c : Char) (rest : List UInt8) :
    unitsFrom none (String.utf8EncodeChar c ++ rest) = some c :: unitsFrom none rest := by
  -- A character is no surrogate and not beyond the last code point.
  have hvalid : c.toNat < 0xD800 ∨ 0xDFFF < c.toNat ∧ c.toNat < 0x110000 := c.valid
  have hchar : Char.ofNat c.toNat = c := Char.ofNat_toNat c
  rcases encodeChar_cases c with ⟨h, hbytes⟩ | ⟨h, h', hbytes⟩ | ⟨h, h', hbytes⟩ | ⟨h, hbytes⟩
  · rw [hbytes, List.singleton_append, unitsFrom_none, start_one h, hchar]
    rfl
  · have hread := unitsFrom_two rest h h'
    rw [hchar] at hread
    rw [hbytes]
    exact hread
  · have hread := unitsFrom_three rest h h' (by omega)
    rw [hchar] at hread
    rw [hbytes]
    exact hread
  · have hread := unitsFrom_four rest h (by omega)
    rw [hchar] at hread
    rw [hbytes]
    exact hread

/-- Decoding undoes encoding. -/
theorem decode_encode (text : String) : decode (encode text) = text := by
  have hunits : ∀ cs : List Char, units (cs.flatMap String.utf8EncodeChar) = cs.map some := by
    intro cs
    induction cs with
    | nil => rfl
    | cons c cs ih => exact (unitsFrom_char c _).trans (congrArg _ ih)
  have hchars : (fun u : Option Char => u.getD replacement) ∘ some = id := rfl
  rw [encode_eq, decode, hunits, List.map_map, hchars, List.map_id, String.ofList_toList]

/-! ## ASCII -/

/-- The bytes of an ASCII character are one, which stands for it. -/
theorem encodeChar_ascii {b : UInt8} (hb : b < 0x80) :
    String.utf8EncodeChar (Char.ofUInt8 b) = [b] := by
  have hbyte : (Char.ofUInt8 b).toNat = b.toNat := rfl
  have hlt : b.toNat < 128 := UInt8.lt_iff_toNat_lt.mp hb
  rcases encodeChar_cases (Char.ofUInt8 b) with ⟨-, hbytes⟩ | ⟨h, -⟩ | ⟨h, -⟩ | ⟨h, -⟩
  · rw [hbytes, hbyte, UInt8.ofNat_toNat]
  all_goals omega

theorem encode_decode {bytes : List UInt8} (h : ∀ b ∈ bytes, b < 0x80) :
    encode (decode bytes) = bytes := by
  induction bytes with
  | nil => rfl
  | cons b rest ih =>
    have hrest := ih fun c hc => h c (List.mem_cons_of_mem b hc)
    have hb := h b List.mem_cons_self
    have hdecode : decode (b :: rest) = decode [] ++ (Char.ofUInt8 b).toString ++ decode rest :=
      decode_ascii [] hb rest
    have hchar : encode (Char.ofUInt8 b).toString = [b] := by
      rw [Char.toString_eq_singleton, String.singleton_eq_ofList, encode_ofList]
      simp [encodeChar_ascii hb]
    rw [hdecode, encode_append, encode_append, hchar, hrest]
    rfl

/-- An ASCII byte of a text is the byte of a character of it. -/
theorem mem_of_mem_encode {b : UInt8} (hb : b < 0x80) {text : String} (h : b ∈ encode text) :
    Char.ofUInt8 b ∈ text.toList := by
  rw [encode_eq] at h
  obtain ⟨c, hc, hmem⟩ := List.mem_flatMap.mp h
  suffices hsame : c = Char.ofUInt8 b from hsame ▸ hc
  have hvalid : c.toNat < 0xD800 ∨ 0xDFFF < c.toNat ∧ c.toNat < 0x110000 := c.valid
  have hlt : b.toNat < 128 := UInt8.lt_iff_toNat_lt.mp hb
  -- The bytes of a character that has more than one are not below 80.
  have hbyte : ∀ v, b = UInt8.ofNat v → 128 ≤ v → v < 256 → False := by
    intro v hv hle hlt'
    rw [hv, UInt8.toNat_ofNat'] at hlt
    omega
  rcases encodeChar_cases c with ⟨hone, hbytes⟩ | ⟨-, -, hbytes⟩ | ⟨-, -, hbytes⟩ | ⟨-, hbytes⟩
  · rw [hbytes, List.mem_singleton] at hmem
    refine Char.toNat_inj.mp ?_
    show c.toNat = b.toNat
    rw [hmem, UInt8.toNat_ofNat']
    omega
  · rw [hbytes] at hmem
    simp only [List.mem_cons, List.not_mem_nil, or_false] at hmem
    rcases hmem with hmem | hmem <;> exact (hbyte _ hmem (by omega) (by omega)).elim
  · rw [hbytes] at hmem
    simp only [List.mem_cons, List.not_mem_nil, or_false] at hmem
    rcases hmem with hmem | hmem | hmem <;> exact (hbyte _ hmem (by omega) (by omega)).elim
  · rw [hbytes] at hmem
    simp only [List.mem_cons, List.not_mem_nil, or_false] at hmem
    rcases hmem with hmem | hmem | hmem | hmem <;> exact (hbyte _ hmem (by omega) (by omega)).elim

/-- With whatever bytes an open character goes on, it ends beyond ASCII. -/
def Pending.Beyond (p : Pending) : Prop :=
  2 ≤ p.bits ∨ p.later ≠ 0 ∧ (1 ≤ p.bits ∨ 0x90 ≤ p.low)

instance (p : Pending) : Decidable p.Beyond :=
  inferInstanceAs (Decidable (2 ≤ p.bits ∨ p.later ≠ 0 ∧ (1 ≤ p.bits ∨ 0x90 ≤ p.low)))

theorem beyond_start (b : UInt8) : ∀ p ∈ (start b).2, p.Beyond := by
  have hall : ∀ n < 256, ((start (UInt8.ofNat n)).2.all fun p => p.Beyond) = true := by
    decide +kernel
  intro p hp
  have hb := hall b.toNat b.toNat_lt
  rw [UInt8.ofNat_toNat, Option.all_eq_true] at hb
  exact of_decide_eq_true (hb p hp)

theorem beyond_extend {p : Pending} (h : p.Beyond) (proper : p.Proper) {b : UInt8}
    (hb : p.accepts b = true) : ∀ q ∈ (p.extend b).2, q.Beyond := by
  intro q hq
  have hlow : p.low.toNat ≤ b.toNat := by
    unfold Pending.accepts at hb
    rw [Bool.and_eq_true, decide_eq_true_eq] at hb
    exact UInt8.le_iff_toNat_le.mp hb.1
  have hproper : 128 ≤ p.low.toNat := UInt8.le_iff_toNat_le.mp proper
  unfold Pending.extend at hq
  cases hlater : p.later with
  | zero =>
    rw [hlater] at hq
    cases hq
  | succ later =>
    rw [hlater] at hq
    obtain rfl := Option.some.inj hq
    left
    show 2 ≤ p.bits * 64 + (b.toNat - 128)
    rcases h with hbits | ⟨-, hbits | hnarrow⟩
    · omega
    · omega
    · have hnarrowed : 144 ≤ p.low.toNat := UInt8.le_iff_toNat_le.mp hnarrow
      omega

/-- A number beyond ASCII is that of no ASCII character. One that is no code point stands for the
character zero. -/
theorem char_ofNat_ne {n : Nat} (h : 128 ≤ n) {b : UInt8} (hb : b < 0x80) (hzero : b ≠ 0) :
    Char.ofNat n ≠ Char.ofUInt8 b := by
  intro hsame
  have hlt : b.toNat < 128 := UInt8.lt_iff_toNat_lt.mp hb
  have hnat : (Char.ofNat n).toNat = b.toNat := congrArg Char.toNat hsame
  unfold Char.ofNat at hnat
  by_cases hvalid : n.isValidChar
  · rw [dif_pos hvalid] at hnat
    have hvalue : n = b.toNat := hnat
    omega
  · rw [dif_neg hvalid] at hnat
    exact hzero (UInt8.toNat_inj.mp hnat.symm)

/-- What a byte that continues a character completes is no ASCII character. -/
theorem ne_of_mem_extend {p : Pending} (h : p.Beyond) {a b : UInt8} (hb : b < 0x80)
    (hzero : b ≠ 0) : some (Char.ofUInt8 b) ∉ (p.extend a).1 := by
  intro hmem
  unfold Pending.extend at hmem
  cases hlater : p.later with
  | succ later =>
    rw [hlater] at hmem
    cases hmem
  | zero =>
    have hbits : 2 ≤ p.bits := h.resolve_right fun hmore => hmore.1 hlater
    rw [hlater, List.mem_singleton] at hmem
    have hvalue : 128 ≤ p.bits * 64 + (a.toNat - 128) := by omega
    exact char_ofNat_ne hvalue hb hzero (Option.some.inj hmem).symm

/-- Of a byte that starts afresh only its own character is read at once. -/
theorem eq_of_mem_start {a b : UInt8} (h : some (Char.ofUInt8 b) ∈ (start a).1) : b = a := by
  by_cases ha : a < 0x80
  · rw [start_ascii ha, List.mem_singleton] at h
    exact UInt8.toNat_inj.mp (congrArg Char.toNat (Option.some.inj h))
  · unfold start at h
    rw [if_neg ha] at h
    repeat' split at h
    all_goals simp at h

/-- An ASCII character that is read stands for one of the bytes. -/
theorem mem_of_mem_unitsFrom {b : UInt8} (hb : b < 0x80) (hzero : b ≠ 0)
    {pending : Option Pending} (proper : ∀ p ∈ pending, p.Proper)
    (beyond : ∀ p ∈ pending, p.Beyond) {bytes : List UInt8}
    (h : some (Char.ofUInt8 b) ∈ unitsFrom pending bytes) : b ∈ bytes := by
  induction bytes generalizing pending with
  | nil => cases pending <;> simp [unitsFrom] at h
  | cons a rest ih =>
    -- A byte that starts a character anew is that character or the first of several.
    have hafresh : some (Char.ofUInt8 b) ∈ (start a).1 ++ unitsFrom (start a).2 rest →
        b ∈ a :: rest := by
      intro hmem
      rcases List.mem_append.mp hmem with hfirst | hlater
      · rw [eq_of_mem_start hfirst]
        exact List.mem_cons_self
      · exact List.mem_cons_of_mem a (ih (proper_start a) (beyond_start a) hlater)
    cases pending with
    | none => exact hafresh h
    | some p =>
      rw [unitsFrom_some, step] at h
      by_cases haccepts : p.accepts a = true
      · simp only [haccepts, if_true] at h
        rcases List.mem_append.mp h with hfirst | hlater
        · exact absurd hfirst (ne_of_mem_extend (beyond p rfl) hb hzero)
        · exact List.mem_cons_of_mem a (ih (proper_extend p a)
            (beyond_extend (beyond p rfl) (proper p rfl) haccepts) hlater)
      · simp only [haccepts, if_false, List.cons_append, List.mem_cons, reduceCtorEq,
          false_or] at h
        exact hafresh h

theorem mem_of_mem_decode {b : UInt8} (hb : b < 0x80) (hzero : b ≠ 0) {bytes : List UInt8}
    (h : Char.ofUInt8 b ∈ (decode bytes).toList) : b ∈ bytes := by
  unfold decode at h
  rw [String.toList_ofList] at h
  obtain ⟨u, hu, hchar⟩ := List.mem_map.mp h
  cases u with
  | some c =>
    rw [show c = Char.ofUInt8 b from hchar] at hu
    exact mem_of_mem_unitsFrom hb hzero (by simp) (by simp) hu
  | none =>
    have hreplacement : Char.ofNat 0xFFFD = Char.ofUInt8 b := hchar
    exact absurd hreplacement (char_ofNat_ne (by decide) hb hzero)

/-- An ASCII byte that is none of some bytes does not come in by decoding and encoding them. -/
theorem not_mem_encode_decode {b : UInt8} (hb : b < 0x80) (hzero : b ≠ 0) {bytes : List UInt8}
    (h : b ∉ bytes) : b ∉ encode (decode bytes) :=
  fun hmem => h (mem_of_mem_decode hb hzero (mem_of_mem_encode hb hmem))

end LoxLang.Utf8
