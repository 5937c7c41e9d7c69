import LoxLang.Number.Binary64
import LoxLang.Value.Basic

/-!
# Sizes and indices of arrays

Numbers are taken as sizes and indices only when they are integral; a negative zero is zero.
-/

namespace LoxLang

/-- What is wrong with a size or an index. -/
inductive ArrayFault
  | notASize
  | tooLarge
  | notAnIndex
  | negativeIndex
  | noSuchIndex
deriving Repr, DecidableEq

/-- The wording of a fault. -/
def ArrayFault.message : ArrayFault → String
  | notASize => "Array size must be a non-negative integer."
  | tooLarge => "Array size too large."
  | notAnIndex => "Array index must be an integer."
  | negativeIndex => "Array index can't be negative."
  | noSuchIndex => "Invalid array index."

/-- The sign and magnitude of a value that is an integral number. -/
def Value.integral? : Value → Option (Bool × Nat)
  | number value => (Binary64.ofFloat value).integral?
  | _ => none

/-- The largest size of an array. -/
def maxArraySize : Nat := Nat.pow 2 32 - 1

/-- The size that a value says an array shall have, where there is room for so many elements. -/
def arraySize (value : Value) (room : Nat) : Except ArrayFault Nat :=
  match value.integral? with
  | some (negative, n) =>
    if negative && n != 0 then .error .notASize
    else if maxArraySize < n then .error .tooLarge
    else if room < n then .error .tooLarge
    else .ok n
  | none => .error .notASize

/-- The index that a value names in an array of the given length. -/
def arrayIndex (value : Value) (length : Nat) : Except ArrayFault Nat :=
  match value.integral? with
  | some (negative, n) =>
    if negative && n != 0 then .error .negativeIndex
    else if length ≤ n then .error .noSuchIndex
    else .ok n
  | none => .error .notAnIndex

end LoxLang
