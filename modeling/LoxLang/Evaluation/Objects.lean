import LoxLang.Machine.State

/-!
# Objects

Properties of objects, methods bound to them, and `super`. A method is bound by a new frame
that holds the object as its only variable, in the place where the method's code expects
`this`.
-/

namespace LoxLang

/-- A function as a value of its own. -/
def Closure.toValue (closure : Closure) : Run Value := do
  return .function (← Run.newIdentity) closure

/-- A method with an object for its `this`. -/
def Closure.bind (method : Closure) (receiver : Value) : Run Closure := do
  let frame ← Run.newFrame method.frame
  Run.define frame receiver
  return { method with frame := some frame }

/-- The method that was found, bound to an object. -/
def bindFound (found : Option Closure) (receiver : Value) (name : Name) : Run Value :=
  match found with
  | some method => do (← method.bind receiver).toValue
  | none => Run.fail name.line (.undefinedProperty name.text)

/-- The property of an array. -/
def arrayProperty (array : ArrayId) (name : Name) : Run Value := do
  if name.text = "length" then return .number (Float.ofNat (← Run.arrayLength array))
  else if name.text = ArrayMethod.get.name then return .arrayMethod array .get
  else if name.text = ArrayMethod.set.name then return .arrayMethod array .set
  else Run.fail name.line (.undefinedProperty name.text)

/-- The property of an object: its field of that name, or else its method. -/
def property (object : Value) (name : Name) : Run Value := do
  match object with
  | .instanceOf id type =>
    match ← Run.field? id name.text with
    | some value => return value
    | none => bindFound (type.findMethod? name.text) object name
  | .classValue c =>
    match ← Run.field? c.id name.text with
    | some value => return value
    | none => bindFound (c.findClassMethod? name.text) object name
  | .array id => arrayProperty id name
  | _ => Run.fail name.line .noProperties

/-- The object whose field is to be set. -/
def fieldOwner (object : Value) (name : Name) : Run ObjectId :=
  match object with
  | .instanceOf id _ => pure id
  | .classValue c => pure c.id
  | .array _ => Run.fail name.line .arrayFields
  | _ => Run.fail name.line .noFields

/-- The binding of an occurrence, and the current frame. -/
def boundHere? (id : RefId) : Run (Option (Binding × FrameId)) := fun m =>
  match m.bindings[id]?, m.current with
  | some binding, some frame => .ok (some (binding, frame)) m
  | _, _ => .ok none m

/-- The value in a slot as seen from a frame. -/
def slotValue (frame : FrameId) (depth slot line : Nat) : Run Value := fun m =>
  match m.frames.get frame depth slot with
  | .ok value => .ok value m
  | .error fault => .error (.failed line (.frame fault)) m

/-- The object that `this` is where `super` is written, and the method that `super` finds: it is
looked up from the superclass of the class in which the word is written. The frame of `this`
lies just inside the one that holds the superclass. -/
def superTarget (id : RefId) (line : Nat) (name : Name) : Run (Value × Option Closure) := do
  match ← boundHere? id with
  | none => Run.fail line .superUnbound
  | some (binding, frame) =>
    match ← slotValue frame binding.depth binding.slot line with
    | .classValue superclass =>
      match binding.depth with
      | 0 => Run.fail line .superWithoutReceiver
      | depth + 1 =>
        let receiver ← slotValue frame depth 0 line
        match receiver with
        | .classValue _ => return (receiver, superclass.findClassMethod? name.text)
        | _ => return (receiver, superclass.findMethod? name.text)
    | _ => Run.fail line .superKind

/-- The method that `super` finds, bound to the object that `this` is there. -/
def superMethod (id : RefId) (line : Nat) (name : Name) : Run Value := do
  let (receiver, found) ← superTarget id line name
  bindFound found receiver name

end LoxLang
