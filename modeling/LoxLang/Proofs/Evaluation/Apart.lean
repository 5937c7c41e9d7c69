import LoxLang.Proofs.Evaluation.Recoding

/-!
# Pieces that stay apart from arrays and output

Most pieces of a run neither change an array nor write. They do the same whatever the output is
(`Blind`), and leave the arrays and the current frame as they are (`Apart`). What is left are the
calls that make and use arrays, which are blind, and the writing of a text.
-/

namespace LoxLang

variable {α β : Type}

/-- The machine that is left at the end of a run. -/
def Run.left : EStateM.Result Stop Machine α → Machine
  | .ok _ m => m
  | .error _ m => m

/-- The end of a run, with another output. -/
def Run.withSink (sink : Sink) : EStateM.Result Stop Machine α → EStateM.Result Stop Machine α
  | .ok a m => .ok a { m with sink := sink }
  | .error stop m => .error stop { m with sink := sink }

theorem Ensures.left {run : Run α} {m : Machine} {P : Machine → Prop}
    (h : Ensures run m (fun _ => P) fun _ => P) : P (Run.left (run m)) := by
  unfold Ensures at h
  cases hrun : run m with
  | ok a m' => rwa [hrun] at h
  | error stop m' => rwa [hrun] at h

/-- A run that does the same with any output, which it leaves as it is. -/
def Blind (run : Run α) : Prop :=
  ∀ m sink, run { m with sink := sink } = Run.withSink sink (run m)

/-- A machine with the arrays of another one, in the same frame. -/
structure Machine.Spares (m m' : Machine) : Prop where
  arrays : m'.arrays = m.arrays
  current : m'.current = m.current

/-- A run that has nothing to do with the output and changes no array. -/
structure Apart (run : Run α) : Prop where
  blind : Blind run
  spares : ∀ m, Ensures run m (fun _ m' => m.Spares m') fun _ m' => m.Spares m'

theorem Machine.Spares.refl (m : Machine) : m.Spares m :=
  ⟨rfl, rfl⟩

theorem Machine.Spares.trans {m m₁ m₂ : Machine} (h : m.Spares m₁) (h' : m₁.Spares m₂) :
    m.Spares m₂ :=
  ⟨h'.arrays.trans h.arrays, h'.current.trans h.current⟩

section

variable {run : Run α} {next : α → Run β}

theorem Blind.bind (h : Blind run) (h' : ∀ a, Blind (next a)) : Blind (run >>= next) := by
  intro m sink
  show EStateM.bind run next _ = Run.withSink sink (EStateM.bind run next m)
  unfold EStateM.bind
  rw [h m sink]
  cases run m with
  | ok a m' => exact h' a m' sink
  | error stop m' => rfl

/-- The output that a blind run leaves is the one that it has found. -/
theorem Blind.sink (h : Blind run) (m : Machine) : (Run.left (run m)).sink = m.sink := by
  have hown : run m = Run.withSink m.sink (run m) := h m m.sink
  rw [hown]
  cases run m <;> rfl

theorem apart_pure (a : α) : Apart (pure a : Run α) :=
  ⟨fun _ _ => rfl, .refl⟩

theorem apart_throw (stop : Stop) : Apart (throw stop : Run α) :=
  ⟨fun _ _ => rfl, .refl⟩

theorem apart_fail (line : Nat) (cause : FailureCause) : Apart (Run.fail line cause : Run α) :=
  apart_throw _

theorem Apart.bind (h : Apart run) (h' : ∀ a, Apart (next a)) : Apart (run >>= next) where
  blind := h.blind.bind fun a => (h' a).blind
  spares m := (h.spares m).bind fun a m₁ hspares =>
    ((h' a).spares m₁).mono (fun _ _ => hspares.trans) fun _ _ => hspares.trans

theorem Apart.map {f : α → β} (h : Apart run) : Apart (f <$> run) := by
  rw [map_eq_pure_bind]
  exact h.bind fun a => apart_pure (f a)

theorem Apart.ite {condition : Prop} [Decidable condition] {other : Run α} (h : Apart run)
    (h' : Apart other) : Apart (if condition then run else other) := by
  split
  · exact h
  · exact h'

end

/-! ## Operations of the machine -/

theorem blind_ofExcept {ε : Type} (line : Nat) (cause : ε → FailureCause) (result : Except ε α) :
    Blind (Run.ofExcept line cause result) := by
  cases result with
  | ok a => exact (apart_pure a).blind
  | error e => exact (apart_fail line (cause e)).blind

theorem apart_newIdentity : Apart Run.newIdentity :=
  ⟨fun _ _ => rfl, fun _ => ⟨rfl, rfl⟩⟩

theorem apart_newObject : Apart Run.newObject :=
  ⟨fun _ _ => rfl, fun _ => ⟨rfl, rfl⟩⟩

theorem apart_newFrame (outer : Option FrameId) : Apart (Run.newFrame outer) :=
  ⟨fun _ _ => rfl, fun _ => ⟨rfl, rfl⟩⟩

theorem apart_define (frame : FrameId) (value : Value) : Apart (Run.define frame value) :=
  ⟨fun _ _ => rfl, fun _ => ⟨rfl, rfl⟩⟩

theorem apart_defineAll (frame : FrameId) (values : List Value) :
    Apart (Run.defineAll frame values) := by
  induction values with
  | nil => exact apart_pure ()
  | cons value rest ih => exact (apart_define frame value).bind fun _ => ih

theorem apart_current : Apart Run.current :=
  ⟨fun _ _ => rfl, .refl⟩

theorem apart_field? (object : ObjectId) (name : String) : Apart (Run.field? object name) :=
  ⟨fun _ _ => rfl, .refl⟩

theorem apart_setField (object : ObjectId) (name : String) (value : Value) :
    Apart (Run.setField object name value) :=
  ⟨fun _ _ => rfl, fun _ => ⟨rfl, rfl⟩⟩

theorem apart_arrayLength (array : ArrayId) : Apart (Run.arrayLength array) :=
  ⟨fun _ _ => rfl, .refl⟩

theorem apart_element (array : ArrayId) (index : Nat) : Apart (Run.element array index) :=
  ⟨fun _ _ => rfl, .refl⟩

theorem apart_textOf (value : Value) : Apart (Run.textOf value) := by
  constructor
  · intro m sink
    unfold Run.textOf
    dsimp only
    cases value.text? m.arrays <;> rfl
  · intro m
    unfold Ensures Run.textOf
    cases value.text? m.arrays <;> exact .refl m

theorem apart_readClock : Apart Run.readClock :=
  ⟨fun _ _ => rfl, fun _ => ⟨rfl, rfl⟩⟩

theorem apart_room : Apart Run.room :=
  ⟨fun _ _ => rfl, .refl⟩

theorem blind_newArray (size : Nat) : Blind (Run.newArray size) :=
  fun _ _ => rfl

theorem blind_setElement (array : ArrayId) (index : Nat) (value : Value) :
    Blind (Run.setElement array index value) :=
  fun _ _ => rfl

/-! ## Variables -/

theorem apart_boundHere? (id : RefId) : Apart (boundHere? id) := by
  constructor
  · rintro ⟨globals, frames, objects, arrays, identities, current, bindings, old, ticks, host⟩ sink
    unfold boundHere?
    cases bindings[id]? with
    | none => rfl
    | some binding => cases current <;> rfl
  · intro m
    unfold Ensures boundHere?
    cases m.bindings[id]? with
    | none => exact .refl m
    | some binding => cases m.current <;> exact .refl m

theorem apart_slotValue (frame : FrameId) (depth slot line : Nat) :
    Apart (slotValue frame depth slot line) := by
  constructor
  · intro m sink
    unfold slotValue
    cases m.frames.get frame depth slot <;> rfl
  · intro m
    unfold Ensures slotValue
    cases m.frames.get frame depth slot <;> exact .refl m

theorem apart_globalValue (name : String) (line : Nat) : Apart (globalValue name line) := by
  constructor
  · intro m sink
    unfold globalValue
    cases m.globals.get? name <;> rfl
  · intro m
    unfold Ensures globalValue
    cases m.globals.get? name <;> exact .refl m

theorem apart_lookUp (id : RefId) (name : String) (line : Nat) :
    Apart (Run.lookUp id name line) := by
  rw [lookUp_eq]
  refine (apart_boundHere? id).bind fun bound => ?_
  cases bound with
  | some bound => exact apart_slotValue _ _ _ _
  | none => exact apart_globalValue name line

theorem apart_assignSlot (frame : FrameId) (depth slot line : Nat) (value : Value) :
    Apart (assignSlot frame depth slot line value) := by
  constructor
  · intro m sink
    unfold assignSlot
    cases m.frames.holder frame depth slot <;> rfl
  · intro m
    unfold Ensures assignSlot
    cases m.frames.holder frame depth slot <;> exact ⟨rfl, rfl⟩

theorem apart_assignGlobal (name : String) (line : Nat) (value : Value) :
    Apart (assignGlobal name line value) := by
  constructor
  · intro m sink
    unfold assignGlobal
    cases m.globals.contains name <;> rfl
  · intro m
    unfold Ensures assignGlobal
    cases m.globals.contains name <;> exact ⟨rfl, rfl⟩

theorem apart_assign (id : RefId) (name : String) (line : Nat) (value : Value) :
    Apart (Run.assign id name line value) := by
  rw [assign_eq]
  refine (apart_boundHere? id).bind fun bound => ?_
  cases bound with
  | some bound => exact apart_assignSlot _ _ _ _ _
  | none => exact apart_assignGlobal name line value

theorem apart_declare (name : String) (value : Value) : Apart (Run.declare name value) := by
  constructor
  · rintro ⟨globals, frames, objects, arrays, identities, current, bindings, old, ticks, host⟩ sink
    cases current <;> rfl
  · rintro ⟨globals, frames, objects, arrays, identities, current, bindings, old, ticks, host⟩
    cases current <;> exact ⟨rfl, rfl⟩

/-! ## Operators -/

theorem apart_apply (op : UnaryOp) (line : Nat) (operand : Value) :
    Apart (op.apply line operand) := by
  unfold UnaryOp.apply
  split
  · exact apart_pure _
  · exact apart_pure _
  · exact apart_fail _ _

theorem apart_onNumbers (line : Nat) (operation : Float → Float → Value) (left right : Value) :
    Apart (onNumbers line operation left right) := by
  unfold onNumbers
  split
  · exact apart_pure _
  · exact apart_fail _ _

theorem apart_sum (line : Nat) (left right : Value) : Apart (sum line left right) := by
  unfold sum
  split
  · exact apart_pure _
  · exact (apart_textOf _).bind fun _ => apart_pure _
  · exact (apart_textOf _).bind fun _ => apart_pure _
  · exact apart_fail _ _

theorem apart_quotient (line : Nat) (left right : Value) : Apart (quotient line left right) := by
  unfold quotient
  split
  · exact (apart_fail _ _).ite (apart_pure _)
  · exact apart_fail _ _

theorem apart_applyBoth (op : BinaryOp) (line : Nat) (left right : Value) :
    Apart (op.apply line left right) := by
  cases op with
  | comma => exact apart_pure _
  | equal => exact apart_pure _
  | notEqual => exact apart_pure _
  | add => exact apart_sum line left right
  | divide => exact apart_quotient line left right
  | _ => exact apart_onNumbers line _ left right

/-! ## Objects -/

theorem apart_toValue (f : Closure) : Apart f.toValue :=
  apart_newIdentity.bind fun _ => apart_pure _

theorem apart_bindMethod (method : Closure) (receiver : Value) : Apart (method.bind receiver) :=
  (apart_newFrame method.frame).bind fun frame =>
    (apart_define frame receiver).bind fun _ => apart_pure _

theorem apart_bindFound (found : Option Closure) (receiver : Value) (name : Name) :
    Apart (bindFound found receiver name) := by
  cases found with
  | some method => exact (apart_bindMethod method receiver).bind apart_toValue
  | none => exact apart_fail _ _

theorem apart_arrayProperty (array : ArrayId) (name : Name) : Apart (arrayProperty array name) := by
  refine Apart.ite ?_ (Apart.ite (apart_pure _) (Apart.ite (apart_pure _) (apart_fail _ _)))
  exact (apart_arrayLength array).bind fun _ => apart_pure _

theorem apart_property (object : Value) (name : Name) : Apart (property object name) := by
  cases object with
  | instanceOf id type =>
    refine (apart_field? id name.text).bind fun found => ?_
    cases found with
    | some value => exact apart_pure value
    | none => exact apart_bindFound _ _ name
  | classValue c =>
    refine (apart_field? c.id name.text).bind fun found => ?_
    cases found with
    | some value => exact apart_pure value
    | none => exact apart_bindFound _ _ name
  | array id => exact apart_arrayProperty id name
  | _ => exact apart_fail _ _

theorem apart_fieldOwner (object : Value) (name : Name) : Apart (fieldOwner object name) := by
  cases object with
  | instanceOf id type => exact apart_pure id
  | classValue c => exact apart_pure c.id
  | _ => exact apart_fail _ _

theorem apart_superTarget (id : RefId) (line : Nat) (name : Name) :
    Apart (superTarget id line name) := by
  refine (apart_boundHere? id).bind fun bound => ?_
  cases bound with
  | none => exact apart_fail _ _
  | some bound =>
    obtain ⟨⟨depth, slot⟩, frame⟩ := bound
    refine (apart_slotValue frame depth slot line).bind fun superclass => ?_
    cases superclass with
    | classValue c =>
      cases depth with
      | zero => exact apart_fail _ _
      | succ depth =>
        refine (apart_slotValue frame depth 0 line).bind fun receiver => ?_
        cases receiver <;> exact apart_pure _
    | _ => exact apart_fail _ _

theorem apart_superMethod (id : RefId) (line : Nat) (name : Name) :
    Apart (superMethod id line name) :=
  (apart_superTarget id line name).bind fun _ => apart_bindFound _ _ _

/-! ## Classes and traits -/

theorem apart_superclassOf (ref : Reference) (value : Value) : Apart (superclassOf ref value) := by
  cases value with
  | classValue c => exact apart_pure c
  | _ => exact apart_fail _ _

theorem apart_traitOf (ref : Reference) (value : Value) : Apart (traitOf ref value) := by
  cases value with
  | traitValue id t => exact apart_pure t
  | _ => exact apart_fail _ _

theorem apart_addMethods (line : Nat) (provided : Methods) (names : List String)
    (composed : Methods) : Apart (addMethods line provided names composed) := by
  induction names generalizing composed with
  | nil => exact apart_pure composed
  | cons name rest ih =>
    unfold addMethods
    refine (apart_fail _ _).ite ?_
    cases provided.get? name <;> exact ih _

theorem apart_addTraits (traits : List Reference) (composed : Methods) :
    Apart (addTraits traits composed) := by
  induction traits generalizing composed with
  | nil => exact apart_pure composed
  | cons ref rest ih =>
    refine (apart_lookUp _ _ _).bind fun v => (apart_traitOf ref v).bind fun used => ?_
    exact (apart_addMethods _ _ _ composed).bind ih

theorem apart_checkProvided (composed : Methods) (methods : List NamedFunction) :
    Apart (checkProvided composed methods) := by
  induction methods with
  | nil => exact apart_pure ()
  | cons method rest ih => exact (apart_fail _ _).ite ih

theorem apart_composeTraits (traits : List Reference) (methods : List NamedFunction) :
    Apart (composeTraits traits methods) :=
  (apart_addTraits traits _).bind fun composed =>
    (apart_checkProvided composed methods).bind fun _ => apart_pure composed

theorem apart_methodFrame (superclass : Option Class) : Apart (methodFrame superclass) := by
  cases superclass with
  | none => exact apart_current
  | some c =>
    exact apart_current.bind fun outer => (apart_newFrame outer).bind fun frame =>
      (apart_define frame (.classValue c)).bind fun _ => apart_pure _

theorem apart_newClass (name : Name) (extended : Option Class) (composed : Methods)
    (frame : Option FrameId) (methods classMethods : List NamedFunction) :
    Apart (newClass name extended composed frame methods classMethods) :=
  apart_newObject.bind fun _ => apart_newObject.bind fun _ => apart_pure _

theorem apart_declareClass (name : Name) (superclass : Option Reference)
    (traits : List Reference) (methods classMethods : List NamedFunction) :
    Apart (declareClass name superclass traits methods classMethods) := by
  have hrest : ∀ extended : Option Class, Apart (do
      let composed ← composeTraits traits methods
      let frame ← methodFrame extended
      let declared ← newClass name extended composed frame methods classMethods
      Run.declare name.text (.classValue declared)) :=
    fun extended => (apart_composeTraits traits methods).bind fun composed =>
      (apart_methodFrame extended).bind fun frame =>
        (apart_newClass name extended composed frame methods classMethods).bind fun declared =>
          apart_declare name.text (.classValue declared)
  cases superclass with
  | none => exact hrest none
  | some ref =>
    exact (apart_lookUp _ _ _).bind fun v => (apart_superclassOf ref v).map.bind hrest

theorem apart_declareTrait (name : Name) (traits : List Reference)
    (methods : List NamedFunction) : Apart (declareTrait name traits methods) :=
  (apart_composeTraits traits methods).bind fun _ => apart_current.bind fun _ =>
    apart_newIdentity.bind fun _ => apart_declare _ _

/-! ## Calls -/

open Evaluation

theorem apart_checkArity (expected : Nat) (arguments : List Value) (line : Nat) :
    Apart (checkArity expected arguments line) :=
  Apart.ite (apart_pure ()) (apart_fail _ _)

theorem apart_callClock (arguments : List Value) (line : Nat) :
    Apart (callNative .clock arguments line) :=
  apart_readClock.bind fun _ => apart_pure _

theorem apart_callFrame (closure : Closure) (arguments : List Value) :
    Apart (callFrame closure arguments) :=
  (apart_newFrame closure.frame).bind fun frame =>
    (apart_defineAll frame arguments).bind fun _ => apart_pure frame

theorem apart_callResult (closure : Closure) (line : Nat) (completion : Completion) :
    Apart (callResult closure line completion) := by
  refine Apart.ite ?_ ?_
  · cases closure.frame with
    | some frame => exact apart_slotValue frame 0 0 line
    | none => exact apart_fail _ _
  · cases completion <;> exact apart_pure _

theorem blind_callArray (arguments : List Value) (line : Nat) :
    Blind (callNative .array arguments line) :=
  apart_room.blind.bind fun _ => (blind_ofExcept _ _ _).bind fun size =>
    (blind_newArray size).bind fun _ => (apart_pure _).blind

theorem blind_callArrayMethod (array : ArrayId) (method : ArrayMethod) (arguments : List Value)
    (line : Nat) : Blind (callArrayMethod array method arguments line) := by
  refine (apart_arrayLength array).blind.bind fun length =>
    (blind_ofExcept _ _ _).bind fun index => ?_
  cases method with
  | get => exact (apart_element array index).blind
  | set => exact (blind_setElement array index _).bind fun _ => (apart_pure _).blind

end LoxLang
