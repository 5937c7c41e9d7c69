import LoxLang.Value.Index

/-!
# What numbers mean as sizes and indices

The exact value of a number is a rational one (`Binary64.value?`), and a value means an integer if
it is a number of just that value (`Value.Means`). Sizes and indices of arrays are judged by what
they mean (`arraySize_of_means`, `arrayIndex_of_means`), and whatever means no integer is refused:
values that are not numbers, numbers that are not finite, and fractions (`noInteger_iff`).
-/

namespace LoxLang

/-! ## Exact values -/

namespace Binary64

/-- A natural number with a sign. -/
def signed (negative : Bool) (n : Nat) : Int :=
  if negative then -n else n

/-- The rational number that a finite one is: `±m · 2 ^ q`. -/
def value? : Binary64 → Option Rat
  | .finite negative m (.ofNat q) => some (mkRat (signed negative (m * Nat.pow 2 q)) 1)
  | .finite negative m (.negSucc q) => some (mkRat (signed negative m) (Nat.pow 2 (q + 1)))
  | .infinite _ => none
  | .nan => none

theorem natAbs_signed (negative : Bool) (n : Nat) : (signed negative n).natAbs = n := by
  unfold signed
  cases negative <;> simp

theorem signed_mul (negative : Bool) (n k : Nat) :
    signed negative (n * k) = signed negative n * k := by
  unfold signed
  cases negative
  · rfl
  · exact (Int.neg_mul n k).symm

theorem signed_neg_iff (negative : Bool) (n : Nat) :
    signed negative n < 0 ↔ (negative && n != 0) = true := by
  unfold signed
  cases negative
  · simp
  · simp
    omega

theorem toNat_signed {negative : Bool} {n : Nat} (h : ¬signed negative n < 0) :
    (signed negative n).toNat = n := by
  have habs := natAbs_signed negative n
  omega

theorem power_pos (q : Nat) : 0 < Nat.pow 2 q :=
  Nat.two_pow_pos q

/-- A quotient is an integer if the divisor goes into the dividend. -/
theorem mkRat_eq_ofInt_iff {n z : Int} {d : Nat} (h : 0 < d) :
    mkRat n d = Rat.ofInt z ↔ n = z * d := by
  have hone : Rat.ofInt z = mkRat z 1 := (Rat.mkRat_one z).symm
  rw [hone, Rat.mkRat_eq_iff (Nat.ne_of_gt h) Nat.one_ne_zero, Int.natCast_one, Int.mul_one]

theorem value?_of_integral? {x : Binary64} {negative : Bool} {n : Nat}
    (h : x.integral? = some (negative, n)) : x.value? = some (Rat.ofInt (signed negative n)) := by
  cases x with
  | finite sign m q =>
    obtain ⟨k, hk, hpair⟩ := Option.map_eq_some_iff.mp h
    cases hpair
    cases q with
    | ofNat q =>
      cases hk
      exact congrArg some ((mkRat_eq_ofInt_iff Nat.one_pos).mpr (by simp))
    | negSucc q =>
      simp only [magnitude?] at hk
      split at hk
      · next hzero =>
        cases hk
        refine congrArg some ((mkRat_eq_ofInt_iff (power_pos _)).mpr ?_)
        rw [← signed_mul, Nat.div_mul_cancel (Nat.dvd_of_mod_eq_zero hzero)]
      · cases hk
  | infinite sign => cases h
  | nan => cases h

theorem value?_ne_of_integral? {x : Binary64} (h : x.integral? = none) (z : Int) :
    x.value? ≠ some (Rat.ofInt z) := by
  cases x with
  | finite sign m q =>
    have hmagnitude := Option.map_eq_none_iff.mp h
    cases q with
    | ofNat q => cases hmagnitude
    | negSucc q =>
      simp only [magnitude?] at hmagnitude
      split at hmagnitude
      · cases hmagnitude
      · next hrest =>
        intro hvalue
        have hproduct : signed sign m = z * (Nat.pow 2 (q + 1) : Nat) :=
          (mkRat_eq_ofInt_iff (power_pos _)).mp (Option.some.inj hvalue)
        have hnat : m = z.natAbs * Nat.pow 2 (q + 1) := by
          rw [← natAbs_signed sign m, hproduct, Int.natAbs_mul, Int.natAbs_natCast]
        exact hrest (by rw [hnat, Nat.mul_mod_left])
  | infinite sign => nofun
  | nan => nofun

end Binary64

/-! ## Meanings -/

/-- A value that means an integer: a number of just that value. -/
def Value.Means (v : Value) (z : Int) : Prop :=
  ∃ x, v = .number x ∧ (Binary64.ofFloat x).value? = some (Rat.ofInt z)

/-- A value that means no integer: what is not a number, or not a finite one, or a fraction. -/
inductive Value.NoInteger : Value → Prop
  | kind {v : Value} (h : ∀ x, v ≠ .number x) : NoInteger v
  | nan {x : Float} (h : Binary64.ofFloat x = .nan) : NoInteger (.number x)
  | infinite {x : Float} {negative : Bool} (h : Binary64.ofFloat x = .infinite negative) :
    NoInteger (.number x)
  | fraction {x : Float} {q : Rat} (h : (Binary64.ofFloat x).value? = some q) (den : q.den ≠ 1) :
    NoInteger (.number x)

namespace Value

variable {v : Value} {z z' : Int}

theorem Means.unique (h : v.Means z) (h' : v.Means z') : z = z' := by
  obtain ⟨x, rfl, hx⟩ := h
  obtain ⟨y, hy, hvalue⟩ := h'
  cases hy
  rw [hx] at hvalue
  exact congrArg Rat.num (Option.some.inj hvalue)

theorem means_of_integral? {negative : Bool} {n : Nat} (h : v.integral? = some (negative, n)) :
    v.Means (Binary64.signed negative n) := by
  cases v with
  | number x => exact ⟨x, rfl, Binary64.value?_of_integral? h⟩
  | _ => cases h

theorem not_means_of_integral? (h : v.integral? = none) (z : Int) : ¬v.Means z := by
  rintro ⟨x, rfl, hx⟩
  exact Binary64.value?_ne_of_integral? h z hx

/-- A meaning as an integer is what a value has or has not. -/
theorem noInteger_iff : v.NoInteger ↔ ∀ z, ¬v.Means z := by
  constructor
  · intro h z hz
    obtain ⟨x, rfl, hx⟩ := hz
    cases h with
    | kind h => exact h x rfl
    | nan h =>
      rw [h] at hx
      cases hx
    | infinite h =>
      rw [h] at hx
      cases hx
    | fraction h den =>
      rw [h] at hx
      cases hx
      exact den rfl
  · intro h
    -- A finite value is a rational, and means an integer exactly if its denominator is 1.
    by_cases hnumber : ∃ x, v = .number x
    · obtain ⟨x, rfl⟩ := hnumber
      cases hparts : Binary64.ofFloat x with
      | nan => exact .nan hparts
      | infinite negative => exact .infinite hparts
      | finite negative m q =>
        obtain ⟨r, hr⟩ : ∃ r, (Binary64.ofFloat x).value? = some r := by
          rw [hparts]
          cases q <;> exact ⟨_, rfl⟩
        refine .fraction hr fun den => h r.num ⟨x, rfl, ?_⟩
        rw [hr]
        exact congrArg some (Rat.ext rfl den)
    · exact .kind fun x hx => hnumber ⟨x, hx⟩

theorem noInteger_or_means (v : Value) : v.NoInteger ∨ ∃ z, v.Means z := by
  by_cases h : ∃ z, v.Means z
  · exact .inr h
  · exact .inl (noInteger_iff.mpr fun z hz => h ⟨z, hz⟩)

end Value

/-! ## Sizes and indices -/

section

variable {v : Value} {z : Int}

theorem integral?_of_means (h : v.Means z) :
    ∃ negative n, v.integral? = some (negative, n) ∧ z = Binary64.signed negative n := by
  cases hparts : v.integral? with
  | none => exact absurd h (Value.not_means_of_integral? hparts z)
  | some parts => exact ⟨parts.1, parts.2, rfl, h.unique (Value.means_of_integral? hparts)⟩

theorem integral?_of_noInteger (h : v.NoInteger) : v.integral? = none := by
  cases hparts : v.integral? with
  | none => rfl
  | some parts => exact absurd (Value.means_of_integral? hparts) (Value.noInteger_iff.mp h _)

/-- An index is judged by the integer that it means. -/
theorem arrayIndex_of_means (h : v.Means z) (length : Nat) :
    arrayIndex v length =
      if z < 0 then .error .negativeIndex
      else if length ≤ z.toNat then .error .noSuchIndex
      else .ok z.toNat := by
  obtain ⟨negative, n, hparts, rfl⟩ := integral?_of_means h
  unfold arrayIndex
  simp only [hparts, ← Binary64.signed_neg_iff]
  split
  · rfl
  · next hsign => rw [Binary64.toNat_signed hsign]

theorem arrayIndex_of_noInteger (h : v.NoInteger) (length : Nat) :
    arrayIndex v length = .error .notAnIndex := by
  unfold arrayIndex
  rw [integral?_of_noInteger h]

/-- A size is judged by the integer that it means. -/
theorem arraySize_of_means (h : v.Means z) (room : Nat) :
    arraySize v room =
      if z < 0 then .error .notASize
      else if maxArraySize < z.toNat then .error .tooLarge
      else if room < z.toNat then .error .tooLarge
      else .ok z.toNat := by
  obtain ⟨negative, n, hparts, rfl⟩ := integral?_of_means h
  unfold arraySize
  simp only [hparts, ← Binary64.signed_neg_iff]
  split
  · rfl
  · next hsign => rw [Binary64.toNat_signed hsign]

theorem arraySize_of_noInteger (h : v.NoInteger) (room : Nat) :
    arraySize v room = .error .notASize := by
  unfold arraySize
  rw [integral?_of_noInteger h]

end

end LoxLang
