import LoxLang.Number.Shortest

/-!
# How numbers are written

Three written forms are in use.

* `Number.text`, what a program prints: an integral number by all of its digits, any other
  by the fewest digits that read back, never with an exponent.
* `Number.listing`, the literal of a token: an integral number below `2 ^ 63` with `.0` after
  it, any other by the fewest digits that read back, padded with zeros up to the point.
* `Number.json`: the fewest digits that read back, positional from `10 ^ -5` up to `10 ^ 16`
  and with an exponent outside; infinity has no such form.
-/

namespace LoxLang

namespace Decimal

/-- The text of `n` zeros. -/
def zeros (n : Nat) : String :=
  String.ofList (List.replicate n '0')

/-- Digits with a point that leaves `places` of them behind it. -/
def withPoint (digits : String) (places : Nat) : String :=
  if places < digits.length then
    let cut := digits.length - places
    String.ofList (digits.toList.take cut) ++ "." ++ String.ofList (digits.toList.drop cut)
  else "0." ++ zeros (places - digits.length) ++ digits

/-- All digits up to the point, and no point where nothing follows it. -/
def positional (d : Decimal) : String :=
  match d.exponent with
  | .ofNat e => Nat.repr d.digits ++ zeros e
  | .negSucc e => withPoint (Nat.repr d.digits) (e + 1)

/-- One digit before the point, and the power of ten with its sign. -/
def scientific (d : Decimal) : String :=
  let digits := Nat.repr d.digits
  let power := d.exponent + digits.length - 1
  let mantissa := if digits.length = 1 then digits else withPoint digits (digits.length - 1)
  let sign := if power < 0 then "-" else "+"
  mantissa ++ "e" ++ sign ++ Nat.repr power.natAbs

end Decimal

namespace Number

/-- The sign of a written number. -/
def sign (negative : Bool) : String :=
  if negative then "-" else ""

/-- A finite number by the fewest digits that read back, without an exponent. -/
def plain (negative : Bool) (m : Nat) (q : Int) : String :=
  if m = 0 then sign negative ++ "0"
  else sign negative ++ (Decimal.shortest .up m q).positional

/-- The words for the numbers that are not finite. -/
def infinityText (negative : Bool) : String :=
  sign negative ++ "inf"

/-- The word for a result that is no number. -/
def nanText : String := "NaN"

/-- What a program prints for a number. -/
def text (x : Float) : String :=
  match Binary64.ofFloat x with
  | .nan => nanText
  | .infinite negative => infinityText negative
  | .finite negative m q =>
    match Binary64.magnitude? m q with
    | some n => sign negative ++ Nat.repr n
    | none => plain negative m q

/-- Integral literals below this bound are listed by all their digits. -/
def listingBound : Nat := Nat.pow 2 63

/-- The literal of a number token in a listing. -/
def listing (x : Float) : String :=
  match Binary64.ofFloat x with
  | .nan => nanText
  | .infinite negative => infinityText negative
  | .finite negative m q =>
    match Binary64.magnitude? m q with
    | some n =>
      if n < listingBound then sign (negative && n != 0) ++ Nat.repr n ++ ".0"
      else plain negative m q
    | none => plain negative m q

/-- The place of the point, counted from the first digit, from which on numbers are written
with an exponent. -/
def jsonLargest : Int := 16

/-- The place of the point up to which small numbers are written with an exponent. -/
def jsonSmallest : Int := -5

/-- A number as a value of JSON. -/
def json (x : Float) : String :=
  match Binary64.ofFloat x with
  | .nan => "null"
  | .infinite _ => "null"
  | .finite negative m q =>
    if m = 0 then sign negative ++ "0.0"
    else
      let d := Decimal.shortest .toEven m q
      let point := d.exponent + (Nat.repr d.digits).length
      if jsonSmallest < point ∧ point ≤ jsonLargest then
        sign negative ++ d.positional ++ if 0 ≤ d.exponent then ".0" else ""
      else sign negative ++ d.scientific

end Number

end LoxLang
