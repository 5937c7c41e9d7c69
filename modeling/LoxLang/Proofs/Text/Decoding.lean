import LoxLang.Text.Utf8

/-!
# Decoding around ASCII bytes

A byte below `80` never belongs to a longer character, whatever stands before it. So decoding text
on both sides of such a byte is decoding each side on its own.
-/

namespace LoxLang.Utf8

theorem start_ascii {b : UInt8} (hb : b < 0x80) : start b = ([some (Char.ofUInt8 b)], none) :=
  if_pos hb

/-- An open character accepts no byte below its range, which begins at `80`. -/
def Pending.Proper (p : Pending) : Prop :=
  0x80 ≤ p.low

theorem proper_start (b : UInt8) : ∀ p ∈ (start b).2, p.Proper := by
  unfold start Pending.Proper continuationLow
  repeat' split
  all_goals simp

theorem proper_extend (p : Pending) (b : UInt8) : ∀ q ∈ (p.extend b).2, q.Proper := by
  unfold Pending.extend Pending.Proper
  split <;> simp [continuationLow]

theorem proper_step {pending : Option Pending} {b : UInt8} : ∀ q ∈ (step pending b).2, q.Proper := by
  unfold step
  split
  · exact proper_start b
  · split
    · exact proper_extend _ b
    · exact proper_start b

/-- What is read so far and what follows an ASCII byte do not concern each other. -/
theorem unitsFrom_ascii {pending : Option Pending} (hpending : ∀ p ∈ pending, p.Proper) {b : UInt8}
    (hb : b < 0x80) (first rest : List UInt8) :
    unitsFrom pending (first ++ b :: rest) =
      unitsFrom pending first ++ some (Char.ofUInt8 b) :: unitsFrom none rest := by
  induction first generalizing pending with
  | nil =>
    cases pending with
    | none => simp [unitsFrom, step, start_ascii hb]
    | some p =>
      have hlow : p.accepts b = false := by
        have hp := hpending p rfl
        unfold Pending.Proper at hp
        simp only [Pending.accepts, Bool.and_eq_false_iff, decide_eq_false_iff_not]
        left
        intro hle
        exact absurd (UInt8.le_trans hp hle) (UInt8.not_le.mpr hb)
      simp [unitsFrom, step, hlow, start_ascii hb]
  | cons a first ih =>
    rw [List.cons_append]
    simp only [unitsFrom]
    rw [ih proper_step, List.append_assoc]

theorem decode_ascii (first : List UInt8) {b : UInt8} (hb : b < 0x80) (rest : List UInt8) :
    decode (first ++ b :: rest) = decode first ++ (Char.ofUInt8 b).toString ++ decode rest := by
  have hcons : ∀ (c : Char) (cs : List Char), String.ofList (c :: cs) = c.toString ++ String.ofList cs := by
    intro c cs
    rw [← List.singleton_append, String.ofList_append]
    rfl
  unfold decode units
  rw [unitsFrom_ascii (by simp) hb, List.map_append, List.map_cons, String.ofList_append, hcons,
    String.append_assoc]
  rfl

end LoxLang.Utf8
