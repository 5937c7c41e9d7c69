import LoxLang.Machine.State

/-!
# Declared classes and traits

The methods of a class or trait are those of the traits it uses and those of its body. No two
of the traits may have a method of the same name, and the body may not declare one that a
trait already provides.
-/

namespace LoxLang

/-- The class that a superclass name denotes. -/
def superclassOf (ref : Reference) (value : Value) : Run Class :=
  match value with
  | .classValue c => pure c
  | _ => Run.fail ref.name.line .superclassKind

/-- The trait that a name behind `with` denotes. -/
def traitOf (ref : Reference) (value : Value) : Run Trait :=
  match value with
  | .traitValue _ t => pure t
  | _ => Run.fail ref.name.line (.notATrait ref.name.text)

/-- Add the given methods of a trait to those already composed. -/
def addMethods (line : Nat) (provided : Methods) : List String → Methods → Run Methods
  | [], composed => pure composed
  | name :: rest, composed =>
    if composed.contains name then Run.fail line (.traitsShare name)
    else
      match provided.get? name with
      | some method => addMethods line provided rest (composed.insert name method)
      | none => addMethods line provided rest composed

/-- Add the methods of the traits that are used, one trait after the other. -/
def addTraits : List Reference → Methods → Run Methods
  | [], composed => pure composed
  | ref :: rest, composed => do
    let used ← traitOf ref (← Run.lookUp ref.id ref.name.text ref.name.line)
    addTraits rest (← addMethods ref.name.line used.methods used.methods.sortedKeys composed)

/-- Check that no method of a body is among those composed. -/
def checkProvided (composed : Methods) : List NamedFunction → Run Unit
  | [] => pure ()
  | method :: rest =>
    if composed.contains method.name.text then
      Run.fail method.name.line (.providedByTrait method.name.text)
    else checkProvided composed rest

/-- The methods of the traits that are used, next to which those of the body have room. -/
def composeTraits (traits : List Reference) (methods : List NamedFunction) : Run Methods := do
  let composed ← addTraits traits Dictionary.empty
  checkProvided composed methods
  return composed

/-- A function with its name, declared in a frame. -/
def NamedFunction.closure (f : NamedFunction) (frame : Option FrameId)
    (isInitializer : Bool) : Closure where
  name := some f.name.text
  function := f.function
  frame := frame
  isInitializer := isInitializer

/-- Add the methods of a body to those of its traits. -/
def addBody (composed : Methods) (methods : List NamedFunction) (frame : Option FrameId) :
    Methods :=
  methods.foldl
    (fun table method =>
      table.insert method.name.text
        (method.closure frame (method.name.text = initializerName)))
    composed

/-- The methods that a class has itself. -/
def classMethodTable (methods : List NamedFunction) (frame : Option FrameId) : Methods :=
  methods.foldl
    (fun table method => table.insert method.name.text (method.closure frame false))
    Dictionary.empty

/-- The frame of a class's methods: one that holds the superclass, if there is one. -/
def methodFrame (superclass : Option Class) : Run (Option FrameId) := do
  match superclass with
  | none => Run.current
  | some c =>
    let frame ← Run.newFrame (← Run.current)
    Run.define frame (.classValue c)
    return some frame

/-- A new class with its metaclass. -/
def newClass (name : Name) (extended : Option Class) (composed : Methods) (frame : Option FrameId)
    (methods classMethods : List NamedFunction) : Run Class := do
  let metaclass := Class.mk (← Run.newObject) (name.text ++ " metaclass")
    (extended.bind Class.metaclass) (classMethodTable classMethods frame) none
  return Class.mk (← Run.newObject) name.text extended (addBody composed methods frame)
    (some metaclass)

/-- Declare a class. -/
def declareClass (name : Name) (superclass : Option Reference) (traits : List Reference)
    (methods classMethods : List NamedFunction) : Run Unit := do
  let extended ← match superclass with
    | none => pure none
    | some ref =>
      some <$> (superclassOf ref (← Run.lookUp ref.id ref.name.text ref.name.line))
  let composed ← composeTraits traits methods
  let frame ← methodFrame extended
  let declared ← newClass name extended composed frame methods classMethods
  Run.declare name.text (.classValue declared)

/-- Declare a trait. -/
def declareTrait (name : Name) (traits : List Reference) (methods : List NamedFunction) :
    Run Unit := do
  let composed ← composeTraits traits methods
  let declared : Trait := ⟨name.text, addBody composed methods (← Run.current)⟩
  Run.declare name.text (.traitValue (← Run.newIdentity) declared)

end LoxLang
