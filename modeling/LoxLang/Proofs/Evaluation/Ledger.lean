import LoxLang.Proofs.Evaluation.Apart

/-!
# Ledgers of runs

An audited run does what the run does, and besides keeps a ledger: an entry for each time that it
makes an array, calls a function of an array, or prints. `Audits` says how an audited run is put
together, of pieces that stay apart from arrays and output and of acts that are entered
(`audits_interpret`). What a run does to arrays and output is an induction over that.
-/

namespace LoxLang

/-! ## Entries -/

/-- What a run does to arrays or to the output. -/
inductive Act
  | make (arguments : List Value) (line : Nat)
  | use (array : ArrayId) (method : ArrayMethod) (arguments : List Value) (line : Nat)
  | print (value : Value)

/-- An act is the call of a function that makes or uses an array, or it prints a value. -/
def Act.run : Act → Run Value
  | make arguments line => do
    Evaluation.checkArity Native.array.arity arguments line
    Evaluation.callNative .array arguments line
  | use array method arguments line => do
    Evaluation.checkArity method.arity arguments line
    Evaluation.callArrayMethod array method arguments line
  | print value => do
    Run.print value
    return .nil

/-- What the output makes of its line is what a print comes to. -/
theorem run_print (value : Value) (m : Machine) : (Act.print value).run m =
    match m.sink.receive (value.line m.arrays) with
    | (sink, none) => .ok .nil { m with sink := sink }
    | (sink, some stop) => .error stop { m with sink := sink } := by
  show EStateM.bind (Run.write (value.line m.arrays)) _ m = _
  unfold EStateM.bind Run.write
  obtain ⟨sink, _ | stop⟩ := m.sink.receive (value.line m.arrays) <;> rfl

/-- A print makes no difference to anything but the output. -/
theorem left_print (value : Value) (m : Machine) : Run.left ((Act.print value).run m) =
    { m with sink := (m.sink.receive (value.line m.arrays)).1 } := by
  rw [run_print]
  obtain ⟨sink, _ | stop⟩ := m.sink.receive (value.line m.arrays) <;> rfl

/-- An act of a run, and the machine before it. -/
structure Entry where
  act : Act
  before : Machine

/-- How an act ended, and the machine behind it. -/
def Entry.outcome (e : Entry) : EStateM.Result Stop Machine Value :=
  e.act.run e.before

/-- The machine that a run has come to, and the acts on the way, the latest first. -/
structure Ledger where
  machine : Machine
  entries : List Entry

/-- A run that is audited. -/
abbrev Audit := EStateM Stop Ledger

namespace Audit

variable {α : Type}

/-- The result of a run with the entries up to its end. -/
def settle (entries : List Entry) :
    EStateM.Result Stop Machine α → EStateM.Result Stop Ledger α
  | .ok a m => .ok a ⟨m, entries⟩
  | .error stop m => .error stop ⟨m, entries⟩

/-- Do what is not entered. -/
def quietly (run : Run α) : Audit α := fun l =>
  settle l.entries (run l.machine)

/-- Do what is entered. -/
def perform (act : Act) : Audit Value := fun l =>
  settle (⟨act, l.machine⟩ :: l.entries) (act.run l.machine)

/-- Audit with another current frame; the one before is put back however the run ends. -/
def within (frame : FrameId) (audit : Audit α) : Audit α := fun l =>
  match audit { l with machine.current := some frame } with
  | .ok a l' => .ok a { l' with machine.current := l.machine.current }
  | .error stop l' => .error stop { l' with machine.current := l.machine.current }

/-! ## The audited evaluation -/

/-- Execute statements in order, up to the first that does not complete normally. -/
def inOrder (execute : Stmt → Audit Completion) : List Stmt → Audit Completion
  | [] => pure .normal
  | statement :: rest => do
    match ← execute statement with
    | .normal => inOrder execute rest
    | other => return other

/-- The values of expressions, evaluated in order. -/
def values (evaluate : Expr → Audit Value) : List Expr → Audit (List Value)
  | [] => pure []
  | e :: rest => do
    let value ← evaluate e
    return value :: (← values evaluate rest)

/-- A new instance of a class, set up by its initializer if it has one. -/
def instantiate (call : Closure → List Value → Nat → Audit Value) (type : Class)
    (arguments : List Value) (line : Nat) : Audit Value := do
  let created := Value.instanceOf (← quietly Run.newObject) type
  match type.findMethod? initializerName with
  | some initializer =>
    let _ ← call (← quietly (initializer.bind created)) arguments line
    return created
  | none => return created

/-- Call a value. -/
def callValue (call : Closure → List Value → Nat → Audit Value) (callee : Value)
    (arguments : List Value) (line : Nat) : Audit Value :=
  match callee with
  | .native .array => perform (.make arguments line)
  | .native .clock => do
    quietly (Evaluation.checkArity Native.clock.arity arguments line)
    quietly (Evaluation.callNative .clock arguments line)
  | .function _ closure => do
    quietly (Evaluation.checkArity closure.function.arity arguments line)
    call closure arguments line
  | .classValue type => do
    quietly (Evaluation.checkArity type.arity arguments line)
    instantiate call type arguments line
  | .arrayMethod array method => perform (.use array method arguments line)
  | _ => quietly (Run.fail line .notCallable)

mutual

/-- The value of an expression. -/
def evaluate : Nat → Expr → Audit Value
  | 0, _ => throw .exhausted
  | budget + 1, e => do
    match e with
    | .literal value => return value.value
    | .grouping inner => evaluate budget inner
    | .unary op line operand => quietly (op.apply line (← evaluate budget operand))
    | .binary left op line right =>
      let left ← evaluate budget left
      let right ← evaluate budget right
      quietly (op.apply line left right)
    | .logical left op _ right =>
      let left ← evaluate budget left
      if op.stopsAt left then return left else evaluate budget right
    | .conditional condition thenBranch elseBranch =>
      if (← evaluate budget condition).isTruthy then evaluate budget thenBranch
      else evaluate budget elseBranch
    | .variable ref => quietly (Run.lookUp ref.id ref.name.text ref.name.line)
    | .assign ref value =>
      let value ← evaluate budget value
      quietly (Run.assign ref.id ref.name.text ref.name.line value)
      return value
    | .call callee arguments line =>
      let callee ← evaluate budget callee
      let arguments ← values (evaluate budget) arguments
      callValue (callClosure budget) callee arguments line
    | .get object name => quietly (property (← evaluate budget object) name)
    | .set object name value =>
      let owner ← quietly (fieldOwner (← evaluate budget object) name)
      let value ← evaluate budget value
      quietly (Run.setField owner name.text value)
      return value
    | .this id line => quietly (Run.lookUp id thisName line)
    | .super id line method => quietly (superMethod id line method)
    | .lambda _ function =>
      quietly (Closure.toValue ⟨none, function, ← quietly Run.current, false⟩)

/-- Execute a statement. -/
def execute : Nat → Stmt → Audit Completion
  | 0, _ => throw .exhausted
  | budget + 1, s => do
    match s with
    | .expression value =>
      let _ ← evaluate budget value
      return .normal
    | .print value =>
      let _ ← perform (.print (← evaluate budget value))
      return .normal
    | .varDecl name initial =>
      let value ← match initial with
        | some e => evaluate budget e
        | none => pure .nil
      quietly (Run.declare name.text value)
      return .normal
    | .block body =>
      let frame ← quietly (Run.newFrame (← quietly Run.current))
      within frame (inOrder (execute budget) body)
    | .ifThen condition thenBranch elseBranch =>
      if (← evaluate budget condition).isTruthy then execute budget thenBranch
      else
        match elseBranch with
        | some statement => execute budget statement
        | none => return .normal
    | .whileDo condition body => repeatWhile budget condition body
    | .breakLoop _ => return .broke
    | .returnWith _ value =>
      match value with
      | some e => return .returned (← evaluate budget e)
      | none => return .returned .nil
    | .funDecl declared =>
      let closure := declared.closure (← quietly Run.current) false
      quietly (Run.declare declared.name.text (← quietly closure.toValue))
      return .normal
    | .classDecl name superclass traits methods classMethods =>
      quietly (declareClass name superclass traits methods classMethods)
      return .normal
    | .traitDecl name traits methods =>
      quietly (declareTrait name traits methods)
      return .normal

/-- Execute a statement as long as a condition holds. -/
def repeatWhile : Nat → Expr → Stmt → Audit Completion
  | 0, _, _ => throw .exhausted
  | budget + 1, condition, body => do
    if (← evaluate budget condition).isTruthy then
      match ← execute budget body with
      | .normal => repeatWhile budget condition body
      | .broke => return .normal
      | .returned value => return .returned value
    else return .normal

/-- Call a function. -/
def callClosure : Nat → Closure → List Value → Nat → Audit Value
  | 0, _, _, _ => throw .exhausted
  | budget + 1, closure, arguments, line => do
    let frame ← quietly (Evaluation.callFrame closure arguments)
    let completion ← within frame (inOrder (execute budget) closure.function.body)
    quietly (Evaluation.callResult closure line completion)

end

/-- Execute the statements of a program in order. -/
def interpret (budget : Nat) : List Stmt → Audit Unit
  | [] => pure ()
  | statement :: rest => do
    let _ ← execute budget statement
    interpret budget rest

end Audit

/-! ## How audited runs are made -/

/-- An audited run is made of pieces that stay apart from arrays and output and of acts that are
entered, one after the other or in another frame. -/
inductive Audits : {α : Type} → Audit α → Run α → Prop
  | quiet {α : Type} {run : Run α} (h : Apart run) : Audits (Audit.quietly run) run
  | act (act : Act) : Audits (Audit.perform act) act.run
  | bind {α β : Type} {audit : Audit α} {run : Run α} {next : α → Audit β} {next' : α → Run β}
      (first : Audits audit run) (second : ∀ a, Audits (next a) (next' a)) :
      Audits (audit >>= next) (run >>= next')
  | within {α : Type} {audit : Audit α} {run : Run α} (frame : FrameId)
      (inner : Audits audit run) : Audits (Audit.within frame audit) (Run.within frame run)

section

variable {α β : Type}

theorem audits_pure (a : α) : Audits (pure a) (pure a) :=
  .quiet (apart_pure a)

theorem audits_throw (stop : Stop) : Audits (throw stop : Audit α) (throw stop) :=
  .quiet (apart_throw stop)

theorem Audits.ite {condition : Prop} [Decidable condition] {audit audit' : Audit α}
    {run run' : Run α} (h : Audits audit run) (h' : Audits audit' run') :
    Audits (if condition then audit else audit') (if condition then run else run') := by
  split
  · exact h
  · exact h'

theorem audits_inOrder {audit : Stmt → Audit Completion} {run : Stmt → Run Completion}
    (h : ∀ statement, Audits (audit statement) (run statement)) (body : List Stmt) :
    Audits (Audit.inOrder audit body) (Evaluation.inOrder run body) := by
  induction body with
  | nil => exact audits_pure _
  | cons statement rest ih =>
    refine (h statement).bind fun completion => ?_
    cases completion with
    | normal => exact ih
    | broke => exact audits_pure _
    | returned value => exact audits_pure _

theorem audits_values {audit : Expr → Audit Value} {run : Expr → Run Value}
    (h : ∀ e, Audits (audit e) (run e)) (es : List Expr) :
    Audits (Audit.values audit es) (Evaluation.values run es) := by
  induction es with
  | nil => exact audits_pure _
  | cons e rest ih => exact (h e).bind fun _ => ih.bind fun _ => audits_pure _

end

section

variable {audit : Closure → List Value → Nat → Audit Value}
  {run : Closure → List Value → Nat → Run Value}

theorem audits_instantiate (h : ∀ f arguments line, Audits (audit f arguments line)
      (run f arguments line)) (type : Class) (arguments : List Value) (line : Nat) :
    Audits (Audit.instantiate audit type arguments line)
      (Evaluation.instantiate run type arguments line) := by
  refine (Audits.quiet apart_newObject).bind fun object => ?_
  cases type.findMethod? initializerName with
  | none => exact audits_pure _
  | some initializer =>
    exact (Audits.quiet (apart_bindMethod initializer _)).bind fun f =>
      (h f arguments line).bind fun _ => audits_pure _

theorem audits_callValue (h : ∀ f arguments line, Audits (audit f arguments line)
      (run f arguments line)) (callee : Value) (arguments : List Value) (line : Nat) :
    Audits (Audit.callValue audit callee arguments line)
      (Evaluation.callValue run callee arguments line) := by
  cases callee with
  | native native =>
    cases native with
    | clock =>
      exact (Audits.quiet (apart_checkArity _ _ _)).bind fun _ =>
        .quiet (apart_callClock arguments line)
    | array => exact .act (.make arguments line)
  | function id f =>
    exact (Audits.quiet (apart_checkArity _ _ _)).bind fun _ => h f arguments line
  | classValue type =>
    exact (Audits.quiet (apart_checkArity _ _ _)).bind fun _ =>
      audits_instantiate h type arguments line
  | arrayMethod array method => exact .act (.use array method arguments line)
  | _ => exact .quiet (apart_fail _ _)

end

/-- With a budget, everything that programs are made of is audited. -/
structure AuditsAt (budget : Nat) : Prop where
  evaluate : ∀ e, Audits (Audit.evaluate budget e) (evaluate budget e)
  execute : ∀ s, Audits (Audit.execute budget s) (execute budget s)
  repeatWhile : ∀ condition body,
    Audits (Audit.repeatWhile budget condition body) (repeatWhile budget condition body)
  callClosure : ∀ f arguments line,
    Audits (Audit.callClosure budget f arguments line) (callClosure budget f arguments line)

section

variable {budget : Nat}

theorem AuditsAt.evaluate_succ (h : AuditsAt budget) (e : Expr) :
    Audits (Audit.evaluate (budget + 1) e) (LoxLang.evaluate (budget + 1) e) := by
  unfold Audit.evaluate LoxLang.evaluate
  cases e with
  | literal value => exact audits_pure _
  | grouping inner => exact h.evaluate inner
  | unary op line operand => exact (h.evaluate operand).bind fun _ => .quiet (apart_apply _ _ _)
  | binary left op line right =>
    exact (h.evaluate left).bind fun _ => (h.evaluate right).bind fun _ =>
      .quiet (apart_applyBoth _ _ _ _)
  | logical left op line right =>
    exact (h.evaluate left).bind fun _ => (audits_pure _).ite (h.evaluate right)
  | conditional condition thenBranch elseBranch =>
    exact (h.evaluate condition).bind fun _ => (h.evaluate thenBranch).ite (h.evaluate elseBranch)
  | «variable» ref => exact .quiet (apart_lookUp _ _ _)
  | assign ref value =>
    exact (h.evaluate value).bind fun _ => (Audits.quiet (apart_assign _ _ _ _)).bind fun _ =>
      audits_pure _
  | call callee arguments line =>
    exact (h.evaluate callee).bind fun _ => (audits_values h.evaluate arguments).bind
      fun _ => audits_callValue h.callClosure _ _ line
  | get object name => exact (h.evaluate object).bind fun _ => .quiet (apart_property _ _)
  | set object name value =>
    exact (h.evaluate object).bind fun _ => (Audits.quiet (apart_fieldOwner _ _)).bind fun _ =>
      (h.evaluate value).bind fun _ => (Audits.quiet (apart_setField _ _ _)).bind fun _ =>
        audits_pure _
  | this id line => exact .quiet (apart_lookUp _ _ _)
  | super id line method => exact .quiet (apart_superMethod _ _ _)
  | lambda line function =>
    exact (Audits.quiet apart_current).bind fun _ => .quiet (apart_toValue _)

/-- A print statement is an act, whose value is of no use. -/
theorem audits_print (value : Value) :
    Audits (Audit.perform (.print value) >>= fun _ => pure Completion.normal)
      (Run.print value >>= fun _ => pure Completion.normal) := by
  have hact : Run.print value >>= (fun _ => pure Completion.normal) =
      (Act.print value).run >>= fun _ => pure Completion.normal := by
    simp only [Act.run, bind_assoc, pure_bind]
  rw [hact]
  exact (Audits.act (.print value)).bind fun _ => audits_pure _

theorem AuditsAt.execute_succ (h : AuditsAt budget) (s : Stmt) :
    Audits (Audit.execute (budget + 1) s) (LoxLang.execute (budget + 1) s) := by
  unfold Audit.execute LoxLang.execute
  cases s with
  | expression value => exact (h.evaluate value).bind fun _ => audits_pure _
  | print value => exact (h.evaluate value).bind audits_print
  | varDecl name initial =>
    have hrest : ∀ v, Audits
        (Audit.quietly (Run.declare name.text v) >>= fun _ => pure Completion.normal)
        (Run.declare name.text v >>= fun _ => pure Completion.normal) :=
      fun v => (Audits.quiet (apart_declare name.text v)).bind fun _ => audits_pure _
    cases initial with
    | none => exact hrest .nil
    | some e => exact (h.evaluate e).bind hrest
  | block body =>
    exact (Audits.quiet apart_current).bind fun outer =>
      (Audits.quiet (apart_newFrame outer)).bind fun frame =>
        (audits_inOrder h.execute body).within frame
  | ifThen condition thenBranch elseBranch =>
    refine (h.evaluate condition).bind fun _ => (h.execute thenBranch).ite ?_
    cases elseBranch with
    | none => exact audits_pure _
    | some statement => exact h.execute statement
  | whileDo condition body => exact h.repeatWhile condition body
  | breakLoop line => exact audits_pure _
  | returnWith line value =>
    cases value with
    | none => exact audits_pure _
    | some e => exact (h.evaluate e).bind fun _ => audits_pure _
  | funDecl declared =>
    exact (Audits.quiet apart_current).bind fun _ => (Audits.quiet (apart_toValue _)).bind fun f =>
      (Audits.quiet (apart_declare _ f)).bind fun _ => audits_pure _
  | classDecl name superclass traits methods classMethods =>
    exact (Audits.quiet (apart_declareClass _ _ _ _ _)).bind fun _ => audits_pure _
  | traitDecl name traits methods =>
    exact (Audits.quiet (apart_declareTrait _ _ _)).bind fun _ => audits_pure _

theorem AuditsAt.repeatWhile_succ (h : AuditsAt budget) (condition : Expr) (body : Stmt) :
    Audits (Audit.repeatWhile (budget + 1) condition body)
      (LoxLang.repeatWhile (budget + 1) condition body) := by
  unfold Audit.repeatWhile LoxLang.repeatWhile
  refine (h.evaluate condition).bind fun _ => Audits.ite ?_ (audits_pure _)
  refine (h.execute body).bind fun completion => ?_
  cases completion with
  | normal => exact h.repeatWhile condition body
  | broke => exact audits_pure _
  | returned value => exact audits_pure _

theorem AuditsAt.callClosure_succ (h : AuditsAt budget) (f : Closure) (arguments : List Value)
    (line : Nat) : Audits (Audit.callClosure (budget + 1) f arguments line)
      (LoxLang.callClosure (budget + 1) f arguments line) := by
  unfold Audit.callClosure LoxLang.callClosure
  exact (Audits.quiet (apart_callFrame f arguments)).bind fun frame =>
    ((audits_inOrder h.execute _).within frame).bind fun _ => .quiet (apart_callResult _ _ _)

/-- Whatever the budget, evaluation and execution are audited. -/
theorem auditsAt (budget : Nat) : AuditsAt budget := by
  induction budget with
  | zero =>
    constructor
    · intro e
      unfold Audit.evaluate evaluate
      exact audits_throw _
    · intro s
      unfold Audit.execute execute
      exact audits_throw _
    · intro condition body
      unfold Audit.repeatWhile repeatWhile
      exact audits_throw _
    · intro f arguments line
      unfold Audit.callClosure callClosure
      exact audits_throw _
  | succ budget ih =>
    exact ⟨ih.evaluate_succ, ih.execute_succ, ih.repeatWhile_succ, ih.callClosure_succ⟩

theorem audits_interpret (budget : Nat) (program : List Stmt) :
    Audits (Audit.interpret budget program) (interpret budget program) := by
  induction program with
  | nil => exact audits_pure ()
  | cons statement rest ih => exact ((auditsAt budget).execute statement).bind fun _ => ih

end

/-! ## Erasure -/

namespace Audit

variable {α : Type}

/-- The end of an audited run without its entries. -/
def outcome : EStateM.Result Stop Ledger α → EStateM.Result Stop Machine α
  | .ok a l => .ok a l.machine
  | .error stop l => .error stop l.machine

/-- The ledger at the end of an audited run. -/
def closing : EStateM.Result Stop Ledger α → Ledger
  | .ok _ l => l
  | .error _ l => l

theorem closing_settle (entries : List Entry) (result : EStateM.Result Stop Machine α) :
    closing (settle entries result) = ⟨Run.left result, entries⟩ := by
  cases result <;> rfl

theorem closing_quietly (run : Run α) (l : Ledger) :
    closing (quietly run l) = ⟨Run.left (run l.machine), l.entries⟩ :=
  closing_settle _ _

theorem closing_perform (act : Act) (l : Ledger) :
    closing (perform act l) = ⟨Run.left (act.run l.machine), ⟨act, l.machine⟩ :: l.entries⟩ :=
  closing_settle _ _

@[simp] theorem outcome_settle (entries : List Entry)
    (result : EStateM.Result Stop Machine α) : outcome (settle entries result) = result := by
  cases result <;> rfl

end Audit

/-- An audited run does what the run does. -/
theorem Audits.outcome {α : Type} {audit : Audit α} {run : Run α} (h : Audits audit run)
    (l : Ledger) : Audit.outcome (audit l) = run l.machine := by
  induction h generalizing l with
  | quiet _ => exact Audit.outcome_settle _ _
  | act act => exact Audit.outcome_settle _ _
  | @bind α β audit run next next' _ _ ih ih' =>
    have hfirst := ih l
    show Audit.outcome (EStateM.bind audit next l) = EStateM.bind run next' l.machine
    unfold EStateM.bind
    rw [← hfirst]
    cases audit l with
    | ok a l' => exact ih' a l'
    | error stop l' => rfl
  | @within α audit run frame _ ih =>
    have hinner := ih { l with machine.current := some frame }
    unfold Audit.within Run.within
    rw [← hinner]
    cases audit { l with machine.current := some frame } <;> rfl

/-! ## What audited runs keep -/

/-- What is said of the arrays and the acts before an audited run also holds behind it. -/
def Audits.Keep (P : Arrays → List Entry → Prop) : Prop :=
  ∀ {α : Type} {audit : Audit α} {run : Run α}, Audits audit run → ∀ l : Ledger,
    P l.machine.arrays l.entries →
      P (Audit.closing (audit l)).machine.arrays (Audit.closing (audit l)).entries

/-- Audited runs keep what every act keeps. -/
theorem Audits.keep {P : Arrays → List Entry → Prop}
    (act : ∀ act m entries, P m.arrays entries →
      P (Run.left (act.run m)).arrays (⟨act, m⟩ :: entries)) : Audits.Keep P := by
  intro α audit run h
  -- An audit changes arrays and entries by its acts only, and each act keeps the property.
  induction h with
  | quiet apart =>
    intro l before
    rw [Audit.closing_quietly, (apart.spares l.machine).left.arrays]
    exact before
  | act a =>
    intro l before
    rw [Audit.closing_perform]
    exact act a l.machine l.entries before
  | @bind α β audit run next next' _ _ ih ih' =>
    intro l before
    have hfirst := ih l before
    show P (Audit.closing (EStateM.bind audit next l)).machine.arrays
      (Audit.closing (EStateM.bind audit next l)).entries
    unfold EStateM.bind
    cases haudit : audit l with
    | ok a l' =>
      rw [haudit] at hfirst
      exact ih' a l' hfirst
    | error stop l' =>
      rw [haudit] at hfirst
      exact hfirst
  | @within α audit run frame _ ih =>
    intro l before
    have hinner := ih { l with machine.current := some frame } before
    unfold Audit.within
    cases haudit : audit { l with machine.current := some frame } with
    | ok a l' =>
      rw [haudit] at hinner
      exact hinner
    | error stop l' =>
      rw [haudit] at hinner
      exact hinner

end LoxLang
