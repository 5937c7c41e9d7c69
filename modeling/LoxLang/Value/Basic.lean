import LoxLang.Dictionary
import LoxLang.Number.Binary64
import LoxLang.Tree.Basic

/-!
# Values

The values of a running program. What cannot change is part of the value: the code of a
function, the methods of a class. What can change is kept apart and reached by a number: the
fields of objects, the elements of arrays, the frames of local variables. Functions, classes,
instances and traits also have an identity, by which two of them are told apart.
-/

namespace LoxLang

/-- Names a frame of local variables. -/
abbrev FrameId := Nat

/-- Names the fields of a class or an instance. -/
abbrev ObjectId := Nat

/-- Names the elements of an array. -/
abbrev ArrayId := Nat

/-- Tells functions and traits apart. -/
abbrev Identity := Nat

/-- A function with the frame in which it was declared; a function without a frame around it
sees globals only. -/
structure Closure where
  name : Option String
  function : Function
  frame : Option FrameId
  isInitializer : Bool

/-- Methods by their names. -/
abbrev Methods := Dictionary Closure

/-- A class with the classes it extends. Its metaclass has the methods of the class itself. -/
inductive Class
  | mk (id : ObjectId) (name : String) (superclass : Option Class) (methods : Methods)
      (metaclass : Option Class)

namespace Class

def id : Class → ObjectId
  | mk id _ _ _ _ => id

def name : Class → String
  | mk _ name _ _ _ => name

def superclass : Class → Option Class
  | mk _ _ superclass _ _ => superclass

def methods : Class → Methods
  | mk _ _ _ methods _ => methods

def metaclass : Class → Option Class
  | mk _ _ _ _ metaclass => metaclass

/-- The method of a name: of the class itself, or of the nearest class it extends. -/
def findMethod? (name : String) : Class → Option Closure
  | mk _ _ none methods _ => methods.get? name
  | mk _ _ (some superclass) methods _ =>
    match methods.get? name with
    | some method => some method
    | none => superclass.findMethod? name

/-- The method of a name that the class itself answers to. -/
def findClassMethod? (name : String) (c : Class) : Option Closure :=
  c.metaclass.bind (findMethod? name)

end Class

/-- Methods to compose classes and other traits of. -/
structure Trait where
  name : String
  methods : Methods

/-- The functions that exist before a program runs. -/
inductive Native
  | clock
  | array
deriving Repr, DecidableEq

/-- The functions that an array has. -/
inductive ArrayMethod
  | get
  | set
deriving Repr, DecidableEq

/-- The values of a running program. -/
inductive Value
  | nil
  | bool (value : Bool)
  | number (value : Float)
  | text (value : String)
  | native (function : Native)
  | function (id : Identity) (closure : Closure)
  | classValue (value : Class)
  | instanceOf (id : ObjectId) (type : Class)
  | traitValue (id : Identity) (value : Trait)
  | array (id : ArrayId)
  | arrayMethod (id : ArrayId) (method : ArrayMethod)

instance : Inhabited Value := ⟨.nil⟩

namespace Native

/-- The global name of a native function. -/
def name : Native → String
  | clock => "clock"
  | array => "Array"

/-- The number of arguments a native function takes. -/
def arity : Native → Nat
  | clock => 0
  | array => 1

end Native

/-- The property of an array that is one of its functions. -/
def ArrayMethod.name : ArrayMethod → String
  | get => "get"
  | set => "set"

/-- The number of arguments a function of an array takes. -/
def ArrayMethod.arity : ArrayMethod → Nat
  | get => 1
  | set => 2

/-- The name that a function is shown by. -/
def Closure.label (c : Closure) : String :=
  c.name.getD "anonymous"

/-- The number of arguments a class is called with: those of its initializer. -/
def Class.arity (c : Class) : Nat :=
  match c.findMethod? initializerName with
  | some initializer => initializer.function.arity
  | none => 0

namespace Value

/-- Whether a value counts as true: all do but `nil` and `false`. -/
def isTruthy : Value → Bool
  | nil => false
  | bool value => value
  | _ => true

/-- Equality of values. Values of different kinds differ, numbers compare as numbers, and
what has an identity is equal only to itself. -/
def equals : Value → Value → Bool
  | nil, nil => true
  | bool a, bool b => a == b
  | number a, number b => a == b
  | text a, text b => a == b
  | native a, native b => a == b
  | function a _, function b _ => a == b
  | classValue a, classValue b => a.id == b.id
  | instanceOf a _, instanceOf b _ => a == b
  | traitValue a _, traitValue b _ => a == b
  | array a, array b => a == b
  | arrayMethod a f, arrayMethod b g => a == b && f == g
  | _, _ => false

end Value

/-- The value of a literal. -/
def Literal.value : Literal → Value
  | number value => .number value
  | text value => .text value
  | bool value => .bool value
  | nil => .nil

end LoxLang
