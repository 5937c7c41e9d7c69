/-!
# The exact value of a floating-point number

`Binary64.ofFloat` takes a number apart: its sign and, when it is finite, the natural
numbers `m` and the exponent `q` with which it is `m · 2 ^ q`. Everything that has to be
exact (printing, array sizes, array indices) is computed from these parts.
-/

namespace LoxLang

/-- A floating-point number by its parts. A finite one is `±significand · 2 ^ exponent`, in
the form in which it is stored: the significand is below `2 ^ 53`, and below `2 ^ 52` only at
the least exponent. -/
inductive Binary64
  | finite (negative : Bool) (significand : Nat) (exponent : Int)
  | infinite (negative : Bool)
  | nan
deriving Repr, DecidableEq

namespace Binary64

/-- The least exponent of a finite number. -/
def minExponent : Int := -1074

/-- The parts of the number with the given bit pattern. -/
def ofBits (bits : Nat) : Binary64 :=
  let negative := bits / Nat.pow 2 63 % 2 == 1
  let biased : Nat := bits / Nat.pow 2 52 % Nat.pow 2 11
  let fraction : Nat := bits % Nat.pow 2 52
  if biased = Nat.pow 2 11 - 1 then
    if fraction = 0 then .infinite negative else .nan
  else if biased = 0 then .finite negative fraction minExponent
  else .finite negative (Nat.pow 2 52 + fraction) (minExponent + biased - 1)

/-- The parts of a number. -/
def ofFloat (x : Float) : Binary64 :=
  ofBits x.toBits.toNat

/-- The magnitude `m · 2 ^ q` when it is a natural number. -/
def magnitude? (m : Nat) : Int → Option Nat
  | .ofNat q => some (m * Nat.pow 2 q)
  | .negSucc q =>
    if m % Nat.pow 2 (q + 1) = 0 then some (m / Nat.pow 2 (q + 1)) else none

/-- The sign and the magnitude of an integral number. -/
def integral? : Binary64 → Option (Bool × Nat)
  | .finite negative m q => (magnitude? m q).map fun n => (negative, n)
  | .infinite _ => none
  | .nan => none

end Binary64

end LoxLang
