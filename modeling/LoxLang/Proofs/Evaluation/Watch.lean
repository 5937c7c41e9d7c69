import LoxLang.Evaluation.Step
import LoxLang.Proofs.Machine.Scene

/-!
# Watched runs

A watched run does what the run does, and besides keeps a chronicle: the scene at every moment
at which an expression is evaluated, a statement is executed or a value is stored by an
assignment. `Erases` says that nothing but the chronicle has been added, and
`erases_interpret` that this holds of the run of a whole program.
-/

namespace LoxLang

/-! ## Chronicles -/

/-- A moment of a run, and the scene at it. -/
structure Step where
  moment : Moment
  scene : Scene

/-- The scene that a run has come to, and the steps on the way, the latest first. -/
structure Chronicle where
  scene : Scene
  steps : List Step

/-- A run that is watched. -/
abbrev Watch := EStateM Stop Chronicle

namespace Watch

variable {α β : Type}

/-- Add a step at the present scene. -/
def mark (moment : Moment) : Watch Unit := fun c =>
  .ok () { c with steps := ⟨moment, c.scene⟩ :: c.steps }

/-- The result of a watched run that goes on with other records. -/
def settle (c : Chronicle) (records : Machine → Array Record) :
    EStateM.Result Stop Machine α → EStateM.Result Stop Chronicle α
  | .ok a m => .ok a { c with scene := ⟨m, records m⟩ }
  | .error stop m => .error stop { c with scene := ⟨m, records m⟩ }

/-- Do what makes no frame and declares nothing. -/
def quietly (run : Run α) : Watch α := fun c =>
  settle c (fun _ => c.scene.records) (run c.scene.machine)

/-- Do what makes a frame, of which this is the record. -/
def framing (record : Record) (run : Run α) : Watch α := fun c =>
  settle c
    (fun m => if c.scene.machine.frames.size < m.frames.size then c.scene.records.push record
      else c.scene.records)
    (run c.scene.machine)

/-- Complete the declaration of a variable. -/
def declare (name : String) (value : Value) : Watch Unit := fun c =>
  settle c
    (fun m => match m.current with
      | some frame => c.scene.records.modify frame (·.declare name value)
      | none => c.scene.records)
    (Run.declare name value c.scene.machine)

/-- The frame and the slot of the variable that an occurrence denotes, if it is a local one that
is there. -/
def target? (m : Machine) (id : RefId) : Option (FrameId × Nat) :=
  match m.bindings[id]?, m.current with
  | some binding, some frame =>
    match m.frames.holder frame binding.depth binding.slot with
    | .ok holder => some (holder, binding.slot)
    | .error _ => none
  | _, _ => none

/-- Store the value of an assignment. -/
def assign (ref : Reference) (value : Value) : Watch Unit := fun c =>
  settle c
    (fun _ => match target? c.scene.machine ref.id with
      | some (frame, slot) => c.scene.records.modify frame (·.assign slot value)
      | none => c.scene.records)
    (Run.assign ref.id ref.name.text ref.name.line value c.scene.machine)

/-- Watch with another current frame; the one before is put back however the run ends. -/
def within (frame : FrameId) (watch : Watch α) : Watch α := fun c =>
  match watch { c with scene.machine.current := some frame } with
  | .ok a c' => .ok a { c' with scene.machine.current := c.scene.machine.current }
  | .error stop c' => .error stop { c' with scene.machine.current := c.scene.machine.current }

/-! ## The watched evaluation -/

/-- Read a variable where it is evaluated. -/
def lookUp (ref : Reference) : Watch Value := do
  mark (.evaluating (.variable ref))
  quietly (Run.lookUp ref.id ref.name.text ref.name.line)

/-- The record of the frame that binds a method to an object. -/
def receiverRecord (object : Value) : Record :=
  ⟨.receiver, [(thisName, object)]⟩

/-- The record of the frame of a call. -/
def callRecord (f : Function) (arguments : List Value) : Record :=
  ⟨.function f, (f.params.map Name.text).zip arguments⟩

/-- The record of the frame of a subclass's methods. -/
def superclassRecord (c : Class) : Record :=
  ⟨.superclass, [(superName, .classValue c)]⟩

/-- Execute statements in order, up to the first that does not complete normally. -/
def inOrder (execute : Stmt → Watch Completion) : List Stmt → Watch Completion
  | [] => pure .normal
  | statement :: rest => do
    match ← execute statement with
    | .normal => inOrder execute rest
    | other => return other

/-- The values of expressions, evaluated in order. -/
def values (evaluate : Expr → Watch Value) : List Expr → Watch (List Value)
  | [] => pure []
  | e :: rest => do
    let value ← evaluate e
    return value :: (← values evaluate rest)

/-- A new instance of a class, set up by its initializer if it has one. -/
def instantiate (call : Closure → List Value → Nat → Watch Value) (type : Class)
    (arguments : List Value) (line : Nat) : Watch Value := do
  let created := Value.instanceOf (← quietly Run.newObject) type
  match type.findMethod? initializerName with
  | some initializer =>
    let _ ← call (← framing (receiverRecord created) (initializer.bind created)) arguments line
    return created
  | none => return created

/-- Call a value. -/
def callValue (call : Closure → List Value → Nat → Watch Value) (callee : Value)
    (arguments : List Value) (line : Nat) : Watch Value := do
  match callee with
  | .native native =>
    quietly (Evaluation.checkArity native.arity arguments line)
    quietly (Evaluation.callNative native arguments line)
  | .function _ closure =>
    quietly (Evaluation.checkArity closure.function.arity arguments line)
    call closure arguments line
  | .classValue type =>
    quietly (Evaluation.checkArity type.arity arguments line)
    instantiate call type arguments line
  | .arrayMethod array method =>
    quietly (Evaluation.checkArity method.arity arguments line)
    quietly (Evaluation.callArrayMethod array method arguments line)
  | _ => quietly (Run.fail line .notCallable)

/-- What `super` finds, bound to the object that `this` is there. -/
def superMethod (id : RefId) (line : Nat) (name : Name) : Watch Value := do
  let (receiver, found) ← quietly (superTarget id line name)
  framing (receiverRecord receiver) (bindFound found receiver name)

/-- Add the methods of the traits that are used, one trait after the other. -/
def addTraits : List Reference → Methods → Watch Methods
  | [], composed => pure composed
  | ref :: rest, composed => do
    let used ← quietly (traitOf ref (← lookUp ref))
    addTraits rest
      (← quietly (addMethods ref.name.line used.methods used.methods.sortedKeys composed))

/-- The methods of the traits that are used, next to which those of the body have room. -/
def composeTraits (traits : List Reference) (methods : List NamedFunction) : Watch Methods := do
  let composed ← addTraits traits Dictionary.empty
  quietly (checkProvided composed methods)
  return composed

/-- The frame of a class's methods: one that holds the superclass, if there is one. -/
def methodFrame : Option Class → Watch (Option FrameId)
  | none => quietly (LoxLang.methodFrame none)
  | some c => framing (superclassRecord c) (LoxLang.methodFrame (some c))

/-- Declare a class. -/
def declareClass (name : Name) (superclass : Option Reference) (traits : List Reference)
    (methods classMethods : List NamedFunction) : Watch Unit := do
  let extended ← match superclass with
    | none => pure none
    | some ref => some <$> (quietly (superclassOf ref (← lookUp ref)))
  let composed ← composeTraits traits methods
  let frame ← methodFrame extended
  let declared ← quietly (newClass name extended composed frame methods classMethods)
  declare name.text (.classValue declared)

/-- Declare a trait. -/
def declareTrait (name : Name) (traits : List Reference) (methods : List NamedFunction) :
    Watch Unit := do
  let composed ← composeTraits traits methods
  let declared : Trait := ⟨name.text, addBody composed methods (← quietly Run.current)⟩
  declare name.text (.traitValue (← quietly Run.newIdentity) declared)

mutual

/-- The value of an expression. -/
def evaluate : Nat → Expr → Watch Value
  | 0, _ => throw .exhausted
  | budget + 1, e => do
    mark (.evaluating e)
    match e with
    | .literal value => return value.value
    | .grouping inner => evaluate budget inner
    | .unary op line operand => quietly (op.apply line (← evaluate budget operand))
    | .binary left op line right =>
      let left ← evaluate budget left
      let right ← evaluate budget right
      quietly (op.apply line left right)
    | .logical left op _ right =>
      let left ← evaluate budget left
      if op.stopsAt left then return left else evaluate budget right
    | .conditional condition thenBranch elseBranch =>
      if (← evaluate budget condition).isTruthy then evaluate budget thenBranch
      else evaluate budget elseBranch
    | .variable ref => quietly (Run.lookUp ref.id ref.name.text ref.name.line)
    | .assign ref value =>
      let value ← evaluate budget value
      mark (.storing ref)
      assign ref value
      return value
    | .call callee arguments line =>
      let callee ← evaluate budget callee
      let arguments ← values (evaluate budget) arguments
      callValue (callClosure budget) callee arguments line
    | .get object name =>
      let object ← evaluate budget object
      framing (receiverRecord object) (property object name)
    | .set object name value =>
      let owner ← quietly (fieldOwner (← evaluate budget object) name)
      let value ← evaluate budget value
      quietly (Run.setField owner name.text value)
      return value
    | .this id line => quietly (Run.lookUp id thisName line)
    | .super id line method => superMethod id line method
    | .lambda _ function =>
      quietly (Closure.toValue ⟨none, function, ← quietly Run.current, false⟩)

/-- Execute a statement. -/
def execute : Nat → Stmt → Watch Completion
  | 0, _ => throw .exhausted
  | budget + 1, s => do
    mark (.executing s)
    match s with
    | .expression value =>
      let _ ← evaluate budget value
      return .normal
    | .print value =>
      quietly (Run.print (← evaluate budget value))
      return .normal
    | .varDecl name initial =>
      let value ← match initial with
        | some e => evaluate budget e
        | none => pure .nil
      declare name.text value
      return .normal
    | .block body =>
      let frame ← framing ⟨.block body, []⟩ (Run.newFrame (← quietly Run.current))
      within frame (inOrder (execute budget) body)
    | .ifThen condition thenBranch elseBranch =>
      if (← evaluate budget condition).isTruthy then execute budget thenBranch
      else
        match elseBranch with
        | some statement => execute budget statement
        | none => return .normal
    | .whileDo condition body => repeatWhile budget condition body
    | .breakLoop _ => return .broke
    | .returnWith _ value =>
      match value with
      | some e => return .returned (← evaluate budget e)
      | none => return .returned .nil
    | .funDecl declared =>
      let closure := declared.closure (← quietly Run.current) false
      declare declared.name.text (← quietly closure.toValue)
      return .normal
    | .classDecl name superclass traits methods classMethods =>
      declareClass name superclass traits methods classMethods
      return .normal
    | .traitDecl name traits methods =>
      declareTrait name traits methods
      return .normal

/-- Execute a statement as long as a condition holds. -/
def repeatWhile : Nat → Expr → Stmt → Watch Completion
  | 0, _, _ => throw .exhausted
  | budget + 1, condition, body => do
    if (← evaluate budget condition).isTruthy then
      match ← execute budget body with
      | .normal => repeatWhile budget condition body
      | .broke => return .normal
      | .returned value => return .returned value
    else return .normal

/-- Call a function. -/
def callClosure : Nat → Closure → List Value → Nat → Watch Value
  | 0, _, _, _ => throw .exhausted
  | budget + 1, closure, arguments, line => do
    let frame ← framing (callRecord closure.function arguments)
      (Evaluation.callFrame closure arguments)
    let completion ← within frame (inOrder (execute budget) closure.function.body)
    quietly (Evaluation.callResult closure line completion)

end

/-- Execute the statements of a program in order. -/
def interpret (budget : Nat) : List Stmt → Watch Unit
  | [] => pure ()
  | statement :: rest => do
    let _ ← execute budget statement
    interpret budget rest

/-! ## Erasure -/

/-- The end of a run without the chronicle of it. -/
def outcome : EStateM.Result Stop Chronicle α → EStateM.Result Stop Machine α
  | .ok a c => .ok a c.scene.machine
  | .error stop c => .error stop c.scene.machine

/-- A watched run does what a run does. -/
def Erases (watch : Watch α) (run : Run α) : Prop :=
  ∀ c, outcome (watch c) = run c.scene.machine

/-- Where a run comes to a result, so does the watched one, from any chronicle of its machine. -/
theorem Erases.exists_ok {watch : Watch α} {run : Run α} (h : Erases watch run) {c : Chronicle}
    {a : α} {m : Machine} (hrun : run c.scene.machine = .ok a m) :
    ∃ c', watch c = .ok a c' ∧ c'.scene.machine = m := by
  have hc := h c
  rw [hrun] at hc
  cases hwatch : watch c with
  | ok a' c' =>
    rw [hwatch] at hc
    cases hc
    exact ⟨c', rfl, rfl⟩
  | error stop c' =>
    rw [hwatch] at hc
    cases hc

theorem erases_pure (a : α) : Erases (pure a) (pure a) :=
  fun _ => rfl

theorem erases_throw (stop : Stop) : Erases (throw stop : Watch α) (throw stop) :=
  fun _ => rfl

theorem Erases.bind {watch : Watch α} {run : Run α} {next : α → Watch β} {next' : α → Run β}
    (h : Erases watch run) (h' : ∀ a, Erases (next a) (next' a)) :
    Erases (watch >>= next) (run >>= next') := by
  intro c
  have hc := h c
  show outcome (EStateM.bind watch next c) = EStateM.bind run next' c.scene.machine
  unfold EStateM.bind
  cases hwatch : watch c with
  | ok a c' =>
    rw [hwatch] at hc
    rw [← hc]
    exact h' a c'
  | error stop c' =>
    rw [hwatch] at hc
    rw [← hc]
    rfl

theorem Erases.mark {watch : Watch α} {run : Run α} (moment : Moment) (h : Erases watch run) :
    Erases (Watch.mark moment >>= fun _ => watch) run :=
  fun _ => h _

theorem outcome_settle (c : Chronicle) (records : Machine → Array Record)
    (result : EStateM.Result Stop Machine α) : outcome (settle c records result) = result := by
  cases result <;> rfl

theorem erases_quietly (run : Run α) : Erases (quietly run) run :=
  fun _ => outcome_settle _ _ _

theorem erases_framing (record : Record) (run : Run α) : Erases (framing record run) run :=
  fun _ => outcome_settle _ _ _

theorem erases_declare (name : String) (value : Value) :
    Erases (declare name value) (Run.declare name value) :=
  fun _ => outcome_settle _ _ _

theorem erases_assign (ref : Reference) (value : Value) :
    Erases (assign ref value) (Run.assign ref.id ref.name.text ref.name.line value) :=
  fun _ => outcome_settle _ _ _

theorem Erases.within {watch : Watch α} {run : Run α} (frame : FrameId) (h : Erases watch run) :
    Erases (Watch.within frame watch) (Run.within frame run) := by
  intro c
  have hc := h { c with scene.machine.current := some frame }
  unfold Watch.within Run.within
  rw [← hc]
  cases watch { c with scene.machine.current := some frame } <;> rfl

theorem Erases.ite {condition : Prop} [Decidable condition] {watch watch' : Watch α}
    {run run' : Run α} (h : Erases watch run) (h' : Erases watch' run') :
    Erases (if condition then watch else watch') (if condition then run else run') := by
  split
  · exact h
  · exact h'

theorem erases_inOrder {watch : Stmt → Watch Completion} {run : Stmt → Run Completion}
    (h : ∀ statement, Erases (watch statement) (run statement)) (body : List Stmt) :
    Erases (inOrder watch body) (Evaluation.inOrder run body) := by
  induction body with
  | nil => exact erases_pure _
  | cons statement rest ih =>
    refine (h statement).bind fun completion => ?_
    cases completion with
    | normal => exact ih
    | broke => exact erases_pure _
    | returned value => exact erases_pure _

theorem erases_values {watch : Expr → Watch Value} {run : Expr → Run Value}
    (h : ∀ e, Erases (watch e) (run e)) (es : List Expr) :
    Erases (values watch es) (Evaluation.values run es) := by
  induction es with
  | nil => exact erases_pure _
  | cons e rest ih => exact (h e).bind fun _ => ih.bind fun _ => erases_pure _

section

variable {watch : Closure → List Value → Nat → Watch Value}
  {run : Closure → List Value → Nat → Run Value}

theorem erases_instantiate (h : ∀ f arguments line, Erases (watch f arguments line)
      (run f arguments line)) (type : Class) (arguments : List Value) (line : Nat) :
    Erases (instantiate watch type arguments line)
      (Evaluation.instantiate run type arguments line) := by
  refine (erases_quietly _).bind fun object => ?_
  cases type.findMethod? initializerName with
  | none => exact erases_pure _
  | some initializer =>
    exact (erases_framing _ _).bind fun f => (h f arguments line).bind fun _ => erases_pure _

theorem erases_callValue (h : ∀ f arguments line, Erases (watch f arguments line)
      (run f arguments line)) (callee : Value) (arguments : List Value) (line : Nat) :
    Erases (callValue watch callee arguments line)
      (Evaluation.callValue run callee arguments line) := by
  cases callee with
  | native native => exact (erases_quietly _).bind fun _ => erases_quietly _
  | function id f => exact (erases_quietly _).bind fun _ => h f arguments line
  | classValue type =>
    exact (erases_quietly _).bind fun _ => erases_instantiate h type arguments line
  | arrayMethod array method => exact (erases_quietly _).bind fun _ => erases_quietly _
  | _ => exact erases_quietly _

end

theorem erases_superMethod (id : RefId) (line : Nat) (name : Name) :
    Erases (superMethod id line name) (LoxLang.superMethod id line name) :=
  (erases_quietly _).bind fun _ => erases_framing _ _

theorem erases_lookUp (ref : Reference) :
    Erases (lookUp ref) (Run.lookUp ref.id ref.name.text ref.name.line) :=
  (erases_quietly _).mark _

theorem erases_addTraits (traits : List Reference) (composed : Methods) :
    Erases (addTraits traits composed) (LoxLang.addTraits traits composed) := by
  induction traits generalizing composed with
  | nil => exact erases_pure _
  | cons ref rest ih =>
    exact (erases_lookUp ref).bind fun _ => (erases_quietly _).bind fun _ =>
      (erases_quietly _).bind fun _ => ih _

theorem erases_composeTraits (traits : List Reference) (methods : List NamedFunction) :
    Erases (composeTraits traits methods) (LoxLang.composeTraits traits methods) :=
  (erases_addTraits traits _).bind fun _ => (erases_quietly _).bind fun _ => erases_pure _

theorem erases_methodFrame (extended : Option Class) :
    Erases (methodFrame extended) (LoxLang.methodFrame extended) := by
  cases extended with
  | none => exact erases_quietly _
  | some c => exact erases_framing _ _

theorem erases_declareClass (name : Name) (superclass : Option Reference)
    (traits : List Reference) (methods classMethods : List NamedFunction) :
    Erases (declareClass name superclass traits methods classMethods)
      (LoxLang.declareClass name superclass traits methods classMethods) := by
  have hrest : ∀ extended : Option Class, Erases
      (do
        let composed ← composeTraits traits methods
        let frame ← methodFrame extended
        let declared ← quietly (newClass name extended composed frame methods classMethods)
        declare name.text (.classValue declared))
      (do
        let composed ← LoxLang.composeTraits traits methods
        let frame ← LoxLang.methodFrame extended
        let declared ← newClass name extended composed frame methods classMethods
        Run.declare name.text (.classValue declared)) := fun extended =>
    (erases_composeTraits traits methods).bind fun _ => (erases_methodFrame extended).bind
      fun _ => (erases_quietly _).bind fun _ => erases_declare _ _
  unfold declareClass LoxLang.declareClass
  cases superclass with
  | none => exact hrest none
  | some ref =>
    simp only [map_eq_pure_bind, bind_assoc]
    exact (erases_lookUp ref).bind fun _ => (erases_quietly _).bind fun c =>
      (erases_pure (some c)).bind hrest

theorem erases_declareTrait (name : Name) (traits : List Reference)
    (methods : List NamedFunction) :
    Erases (declareTrait name traits methods) (LoxLang.declareTrait name traits methods) :=
  (erases_composeTraits traits methods).bind fun _ => (erases_quietly _).bind fun _ =>
    (erases_quietly _).bind fun _ => erases_declare _ _

/-- What is watched with a budget is what is done with it. -/
structure ErasesAt (budget : Nat) : Prop where
  evaluate : ∀ e, Erases (evaluate budget e) (LoxLang.evaluate budget e)
  execute : ∀ s, Erases (execute budget s) (LoxLang.execute budget s)
  repeatWhile : ∀ condition body,
    Erases (repeatWhile budget condition body) (LoxLang.repeatWhile budget condition body)
  callClosure : ∀ f arguments line,
    Erases (callClosure budget f arguments line) (LoxLang.callClosure budget f arguments line)

theorem ErasesAt.evaluate_succ {budget : Nat} (h : ErasesAt budget) (e : Expr) :
    Erases (Watch.evaluate (budget + 1) e) (LoxLang.evaluate (budget + 1) e) := by
  unfold Watch.evaluate LoxLang.evaluate
  refine Erases.mark _ ?_
  cases e with
  | literal value => exact erases_pure _
  | grouping inner => exact h.evaluate inner
  | unary op line operand => exact (h.evaluate operand).bind fun _ => erases_quietly _
  | binary left op line right =>
    exact (h.evaluate left).bind fun _ => (h.evaluate right).bind fun _ => erases_quietly _
  | logical left op line right =>
    exact (h.evaluate left).bind fun _ => (erases_pure _).ite (h.evaluate right)
  | conditional condition thenBranch elseBranch =>
    exact (h.evaluate condition).bind fun _ => (h.evaluate thenBranch).ite (h.evaluate elseBranch)
  | «variable» ref => exact erases_quietly _
  | assign ref value =>
    exact (h.evaluate value).bind fun _ =>
      ((erases_assign ref _).bind fun _ => erases_pure _).mark _
  | call callee arguments line =>
    exact (h.evaluate callee).bind fun _ => (erases_values h.evaluate arguments).bind
      fun _ => erases_callValue h.callClosure _ _ line
  | get object name => exact (h.evaluate object).bind fun _ => erases_framing _ _
  | set object name value =>
    exact (h.evaluate object).bind fun _ => (erases_quietly _).bind fun _ =>
      (h.evaluate value).bind fun _ => (erases_quietly _).bind fun _ => erases_pure _
  | this id line => exact erases_quietly _
  | super id line method => exact erases_superMethod id line method
  | lambda line function => exact (erases_quietly _).bind fun _ => erases_quietly _

theorem ErasesAt.execute_succ {budget : Nat} (h : ErasesAt budget) (s : Stmt) :
    Erases (Watch.execute (budget + 1) s) (LoxLang.execute (budget + 1) s) := by
  unfold Watch.execute LoxLang.execute
  refine Erases.mark _ ?_
  cases s with
  | expression value => exact (h.evaluate value).bind fun _ => erases_pure _
  | print value =>
    exact (h.evaluate value).bind fun _ => (erases_quietly _).bind fun _ => erases_pure _
  | varDecl name initial =>
    cases initial with
    | none => exact (erases_declare _ _).bind fun _ => erases_pure _
    | some e =>
      exact (h.evaluate e).bind fun _ => (erases_declare _ _).bind fun _ => erases_pure _
  | block body =>
    exact (erases_quietly _).bind fun _ => (erases_framing _ _).bind fun frame =>
      (erases_inOrder h.execute body).within frame
  | ifThen condition thenBranch elseBranch =>
    refine (h.evaluate condition).bind fun _ => (h.execute thenBranch).ite ?_
    cases elseBranch with
    | none => exact erases_pure _
    | some statement => exact h.execute statement
  | whileDo condition body => exact h.repeatWhile condition body
  | breakLoop line => exact erases_pure _
  | returnWith line value =>
    cases value with
    | none => exact erases_pure _
    | some e => exact (h.evaluate e).bind fun _ => erases_pure _
  | funDecl declared =>
    exact (erases_quietly _).bind fun _ => (erases_quietly _).bind fun _ =>
      (erases_declare _ _).bind fun _ => erases_pure _
  | classDecl name superclass traits methods classMethods =>
    exact (erases_declareClass name superclass traits methods classMethods).bind
      fun _ => erases_pure _
  | traitDecl name traits methods =>
    exact (erases_declareTrait name traits methods).bind fun _ => erases_pure _

theorem erasesAt (budget : Nat) : ErasesAt budget := by
  induction budget with
  | zero =>
    exact ⟨fun _ => erases_throw _, fun _ => erases_throw _, fun _ _ => erases_throw _,
      fun _ _ _ => erases_throw _⟩
  | succ budget ih =>
    refine ⟨ih.evaluate_succ, ih.execute_succ, ?_, ?_⟩
    · intro condition body
      unfold Watch.repeatWhile LoxLang.repeatWhile
      refine (ih.evaluate condition).bind fun _ => Erases.ite ?_ (erases_pure _)
      refine (ih.execute body).bind fun completion => ?_
      cases completion with
      | normal => exact ih.repeatWhile condition body
      | broke => exact erases_pure _
      | returned value => exact erases_pure _
    · intro f arguments line
      unfold Watch.callClosure LoxLang.callClosure
      exact (erases_framing _ _).bind fun frame =>
        ((erases_inOrder ih.execute f.function.body).within frame).bind fun _ => erases_quietly _

theorem erases_evaluate (budget : Nat) (e : Expr) :
    Erases (evaluate budget e) (LoxLang.evaluate budget e) :=
  (erasesAt budget).evaluate e

/-- A watched run of a program does what the run does. -/
theorem erases_interpret (budget : Nat) (program : List Stmt) :
    Erases (interpret budget program) (LoxLang.interpret budget program) := by
  induction program with
  | nil => exact erases_pure _
  | cons statement rest ih => exact ((erasesAt budget).execute statement).bind fun _ => ih

end Watch

end LoxLang
