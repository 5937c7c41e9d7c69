/-!
# Decoding UTF-8 without refusing anything

Source text arrives as bytes that need not be well formed. `units` cuts any byte sequence
into *units*: the characters it encodes and, for each longest stretch that could have begun
a character but does not finish it, one gap. `decode` puts the replacement character into
each gap; `decode?` refuses gaps.

The cut is made one byte at a time. What is remembered between two bytes is a `Pending`
character: the bits read so far, how many bytes are still to come after the next one, and
the range the next byte must lie in. The narrowed ranges after the leading bytes `E0`, `ED`,
`F0` and `F4` keep out overlong forms, surrogates and values beyond the last code point.
-/

namespace LoxLang.Utf8

/-- A character that has begun: its bits so far, the number of bytes that follow the next
one, and the range the next byte has to lie in. -/
structure Pending where
  bits : Nat
  later : Nat
  low : UInt8
  high : UInt8
deriving Repr, DecidableEq

/-- The bytes a continuation byte is taken from when nothing narrows it. -/
def continuationLow : UInt8 := 0x80

/-- The largest continuation byte. -/
def continuationHigh : UInt8 := 0xBF

/-- What one byte contributes: the units it completes, and the character it leaves open. -/
abbrev Step := List (Option Char) × Option Pending

/-- Read a byte with no character open. -/
def start (b : UInt8) : Step :=
  if b < 0x80 then ([some (Char.ofUInt8 b)], none)
  else if b < 0xC2 then ([none], none)
  else if b < 0xE0 then ([], some ⟨b.toNat - 0xC0, 0, continuationLow, continuationHigh⟩)
  else if b == 0xE0 then ([], some ⟨0, 1, 0xA0, continuationHigh⟩)
  else if b == 0xED then ([], some ⟨13, 1, continuationLow, 0x9F⟩)
  else if b < 0xF0 then ([], some ⟨b.toNat - 0xE0, 1, continuationLow, continuationHigh⟩)
  else if b == 0xF0 then ([], some ⟨0, 2, 0x90, continuationHigh⟩)
  else if b < 0xF4 then ([], some ⟨b.toNat - 0xF0, 2, continuationLow, continuationHigh⟩)
  else if b == 0xF4 then ([], some ⟨4, 2, continuationLow, 0x8F⟩)
  else ([none], none)

namespace Pending

/-- Whether the byte continues the open character. -/
def accepts (p : Pending) (b : UInt8) : Bool :=
  p.low ≤ b && b ≤ p.high

/-- Continue the open character by a byte it accepts. -/
def extend (p : Pending) (b : UInt8) : Step :=
  let bits := p.bits * 64 + (b.toNat - 0x80)
  match p.later with
  | 0 => ([some (Char.ofNat bits)], none)
  | later + 1 => ([], some ⟨bits, later, continuationLow, continuationHigh⟩)

end Pending

/-- Read a byte: a byte that the open character does not accept closes it as a gap and then
starts afresh. -/
def step : Option Pending → UInt8 → Step
  | none, b => start b
  | some p, b =>
    if p.accepts b then p.extend b
    else
      let fresh := start b
      (none :: fresh.1, fresh.2)

/-- The units of a byte sequence that is read with a character possibly open. -/
def unitsFrom : Option Pending → List UInt8 → List (Option Char)
  | none, [] => []
  | some _, [] => [none]
  | pending, b :: rest =>
    let next := step pending b
    next.1 ++ unitsFrom next.2 rest

/-- The characters of a byte sequence, with `none` for each longest unfinished stretch. -/
def units (bytes : List UInt8) : List (Option Char) :=
  unitsFrom none bytes

/-- What stands for a gap: U+FFFD. -/
def replacement : Char := '\uFFFD'

/-- The text of a byte sequence, with the replacement character for each gap. -/
def decode (bytes : List UInt8) : String :=
  String.ofList ((units bytes).map (·.getD replacement))

/-- The text of a byte sequence that is well formed. -/
def decode? (bytes : List UInt8) : Option String :=
  ((units bytes).mapM id).map String.ofList

/-- The bytes of a text. -/
def encode (text : String) : List UInt8 :=
  text.toUTF8.data.toList

end LoxLang.Utf8
