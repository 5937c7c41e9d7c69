import LoxLang.Number.Layout
import LoxLang.Value.Basic

/-!
# The text of values

What a program prints for a value. An array is shown with its elements, each in the same way
but for texts, which are put between single quotes. So there is no end to the text of an array
that contains itself; of such a text there are beginnings of any length.
-/

namespace LoxLang

/-- The elements of all arrays. -/
abbrev Arrays := Array (Array Value)

/-- The text of a native function. -/
def nativeText (name : String) : String :=
  "<native fn " ++ name ++ ">"

/-- What is shown of something: its whole text, or the beginning of a longer one. -/
structure Rendering where
  text : String
  whole : Bool
deriving Repr, DecidableEq

namespace Rendering

/-- A text of which there is no more. -/
def all (text : String) : Rendering :=
  ⟨text, true⟩

/-- One text after the other. Behind a mere beginning nothing is shown. -/
def append (first second : Rendering) : Rendering :=
  if first.whole then ⟨first.text ++ second.text, second.whole⟩ else first

instance : Append Rendering := ⟨append⟩

/-- A text and more texts, each behind a separator. -/
def separated (separator : String) (first : Rendering) : List Rendering → Rendering
  | [] => first
  | next :: rest => separated separator (first ++ all separator ++ next) rest

/-- Texts with a separator between each two. -/
def join (separator : String) : List Rendering → Rendering
  | [] => all ""
  | first :: rest => separated separator first rest

end Rendering

namespace Value

/-- How the elements of arrays are shown, with what is shown of them elsewhere. -/
def asElement (shown : Value → Rendering) : Value → Rendering
  | text value => .all ("'" ++ value ++ "'")
  | other => shown other

/-- What is shown of a value with arrays up to the given depth. -/
def textWithin (arrays : Arrays) : Nat → Value → Rendering
  | _, nil => .all "nil"
  | _, bool true => .all "true"
  | _, bool false => .all "false"
  | _, number value => .all (Number.text value)
  | _, text value => .all value
  | _, native f => .all (nativeText f.name)
  | _, function _ closure => .all ("<fn " ++ closure.label ++ ">")
  | _, classValue c => .all c.name
  | _, instanceOf _ type => .all (type.name ++ " instance")
  | _, traitValue _ t => .all t.name
  | _, arrayMethod _ method => .all (nativeText method.name)
  | 0, array _ => ⟨"", false⟩
  | depth + 1, array id =>
    let elements := (arrays.getD id #[]).toList.map (asElement (textWithin arrays depth))
    .all "[ " ++ Rendering.join " , " elements ++ .all " ]"

/-- What is shown of a value: its text, or at least the given number of characters if there is no
end to it. Arrays that do not contain themselves are nested no deeper than there are arrays, and
each level of nesting shows a character at least. -/
def shown (arrays : Arrays) (length : Nat) (value : Value) : Rendering :=
  textWithin arrays (arrays.size + 1 + length) value

/-- The line that is printed for a value: as a whole, or a beginning that is no shorter than the
given number of characters. -/
def line (arrays : Arrays) (value : Value) (length : Nat) : Rendering :=
  value.shown arrays length ++ .all "\n"

/-- The text of a value, if there is an end to it. -/
def text? (arrays : Arrays) (value : Value) : Option String :=
  let shown := value.shown arrays 0
  if shown.whole then some shown.text else none

end Value

end LoxLang
