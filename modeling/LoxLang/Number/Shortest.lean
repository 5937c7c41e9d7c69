import LoxLang.Number.Binary64

/-!
# The fewest digits that read back

A floating-point number stands for every real number that rounds to it. Among the decimal
numbers in that interval `shortest` picks one with the fewest significant digits and, of
those, one nearest to the number itself; when two are equally near, the given `Tie` decides.

All comparisons are made between natural numbers. With `u = 2 ^ (q - 2)`, a quarter of the
distance to the next number, the number is `4 m · u`, the interval ends at `(4 m + 2) · u`
above and at `(4 m - 2) · u` below, or at `(4 m - 1) · u` where the numbers below lie half as
far apart. The ends belong to it when `m` is even.
-/

namespace LoxLang

/-- The decimal number `digits · 10 ^ exponent`. -/
structure Decimal where
  digits : Nat
  exponent : Int
deriving Repr, DecidableEq

/-- Which of two equally near candidates is taken. -/
inductive Tie
  | up
  | toEven
deriving Repr, DecidableEq

namespace Shortest

/-- A positive rational number. -/
structure Ratio where
  num : Nat
  den : Nat
deriving Repr, DecidableEq

namespace Ratio

/-- The number `n · b ^ e`. -/
def scaled (n b : Nat) : Int → Ratio
  | .ofNat e => ⟨n * Nat.pow b e, 1⟩
  | .negSucc e => ⟨n, Nat.pow b (e + 1)⟩

def lt (a b : Ratio) : Bool := a.num * b.den < b.num * a.den

def le (a b : Ratio) : Bool := a.num * b.den ≤ b.num * a.den

end Ratio

/-- The reals that round to one number. -/
structure Interval where
  low : Ratio
  value : Ratio
  high : Ratio
  closed : Bool
deriving Repr

namespace Interval

/-- The interval of `m · 2 ^ q`. -/
def ofParts (m : Nat) (q : Int) : Interval where
  low := Ratio.scaled (4 * m - if m = Nat.pow 2 52 ∧ Binary64.minExponent < q then 1 else 2) 2 (q - 2)
  value := Ratio.scaled (4 * m) 2 (q - 2)
  high := Ratio.scaled (4 * m + 2) 2 (q - 2)
  closed := m % 2 == 0

/-- Whether a real rounds to the number. -/
def contains (i : Interval) (x : Ratio) : Bool :=
  if i.closed then i.low.le x && x.le i.high else i.low.lt x && x.lt i.high

end Interval

/-- The least `k` with `1 ≤ x · 10 ^ k`, if it is below the budget. -/
def firstPlace : Nat → Ratio → Nat
  | 0, _ => 0
  | budget + 1, x => if x.den ≤ x.num then 0 else firstPlace budget ⟨x.num * 10, x.den⟩ + 1

/-- More places than any number has zeros behind its point. -/
def maxPlaces : Nat := 400

/-- The power of ten that the first digit of a number stands for. -/
def leadingPower (x : Ratio) : Int :=
  if x.den ≤ x.num then ((Nat.toDigits 10 (x.num / x.den)).length : Int) - 1
  else -(firstPlace maxPlaces x : Int)

/-- The point of the grid of multiples of `10 ^ k` that lies just below a number. -/
def gridBelow (x : Ratio) : Int → Nat
  | .ofNat k => x.num / (x.den * Nat.pow 10 k)
  | .negSucc k => x.num * Nat.pow 10 (k + 1) / x.den

/-- Of the points `d` and `d + 1` of the grid of multiples of `10 ^ k`, between which the
number lies, the nearer; both in the interval. -/
def nearer (tie : Tie) (x : Ratio) (d : Nat) (k : Int) : Nat :=
  let middle := Ratio.scaled (2 * d + 1) 10 k
  let twice : Ratio := ⟨2 * x.num, x.den⟩
  if twice.lt middle then d
  else if middle.lt twice then d + 1
  else match tie with
    | .up => d + 1
    | .toEven => if d % 2 = 0 then d else d + 1

/-- The point of one decimal grid that is nearest to the number, if one lies in its
interval. -/
def onGrid (tie : Tie) (i : Interval) (k : Int) : Option Nat :=
  let d := gridBelow i.value k
  let below := 0 < d && i.contains (Ratio.scaled d 10 k)
  let above := i.contains (Ratio.scaled (d + 1) 10 k)
  if below && above then some (nearer tie i.value d k)
  else if below then some d
  else if above then some (d + 1)
  else none

/-- Try ever finer grids, starting from multiples of `10 ^ k`. -/
def search (tie : Tie) (i : Interval) : Nat → Int → Decimal
  | 0, k => ⟨gridBelow i.value k, k⟩
  | more + 1, k =>
    match onGrid tie i k with
    | some d => ⟨d, k⟩
    | none => search tie i more (k - 1)

/-- Seventeen significant digits tell all numbers apart. -/
def maxDigits : Nat := 17

end Shortest

namespace Decimal

/-- Move zeros at the end of the digits into the exponent, at most `fuel` of them. -/
def stripZeros : Nat → Decimal → Decimal
  | 0, d => d
  | fuel + 1, d =>
    if d.digits % 10 = 0 ∧ d.digits ≠ 0 then stripZeros fuel ⟨d.digits / 10, d.exponent + 1⟩
    else d

/-- The shortest decimal that reads back as `m · 2 ^ q`, for a positive `m`; its last digit
is not zero. -/
def shortest (tie : Tie) (m : Nat) (q : Int) : Decimal :=
  let i := Shortest.Interval.ofParts m q
  stripZeros Shortest.maxDigits
    (Shortest.search tie i Shortest.maxDigits (Shortest.leadingPower i.value))

end Decimal

end LoxLang
