import LoxLang.Evaluation.Step
import LoxLang.Proofs.Ensures

/-!
# Greater budgets

A run that does not stop as `exhausted` does the same with any greater budget (`settlesAt`). So what
a run comes to can be said without regard to its budget (`Comes`), and there is at most one thing
that it comes to.
-/

namespace LoxLang

variable {α β : Type}

/-- A run does what another one does, unless that one runs out of its budget. -/
def Extends (run run' : Run α) : Prop :=
  ∀ m, (∃ m', run m = .error .exhausted m') ∨ run' m = run m

section

variable {run run' : Run α} {next next' : α → Run β}

theorem Extends.refl (run : Run α) : Extends run run :=
  fun _ => .inr rfl

theorem extends_exhausted : Extends (throw .exhausted) run :=
  fun m => .inl ⟨m, rfl⟩

theorem Extends.bind (h : Extends run run') (h' : ∀ a, Extends (next a) (next' a)) :
    Extends (run >>= next) (run' >>= next') := by
  intro m
  rcases h m with ⟨m', hrun⟩ | hsame
  · exact .inl ⟨m', by simp only [Bind.bind, EStateM.bind, hrun]⟩
  · simp only [Bind.bind, EStateM.bind, hsame]
    cases run m with
    | error stop m₁ => exact .inr rfl
    | ok a m₁ => exact h' a m₁

/-- A first part that is the same. -/
theorem extends_bind (h : ∀ a, Extends (next a) (next' a)) :
    Extends (run >>= next) (run >>= next') :=
  (Extends.refl run).bind h

theorem Extends.ite {condition : Prop} [Decidable condition] {other other' : Run α}
    (h : Extends run run') (h' : Extends other other') :
    Extends (if condition then run else other) (if condition then run' else other') := by
  split
  · exact h
  · exact h'

theorem Extends.within (h : Extends run run') (frame : FrameId) :
    Extends (Run.within frame run) (Run.within frame run') := by
  intro m
  unfold Run.within
  rcases h { m with current := some frame } with ⟨m', hrun⟩ | hsame
  · exact .inl ⟨{ m' with current := m.current }, by rw [hrun]; rfl⟩
  · exact .inr (by rw [hsame])

end

/-! ## Parts with a budget -/

open Evaluation

theorem extends_inOrder {execute execute' : Stmt → Run Completion}
    (h : ∀ s, Extends (execute s) (execute' s)) (body : List Stmt) :
    Extends (inOrder execute body) (inOrder execute' body) := by
  induction body with
  | nil => exact .refl _
  | cons s rest ih =>
    refine (h s).bind fun completion => ?_
    cases completion with
    | normal => exact ih
    | broke => exact .refl _
    | returned v => exact .refl _

theorem extends_values {evaluate evaluate' : Expr → Run Value}
    (h : ∀ e, Extends (evaluate e) (evaluate' e)) (es : List Expr) :
    Extends (values evaluate es) (values evaluate' es) := by
  induction es with
  | nil => exact .refl _
  | cons e rest ih => exact (h e).bind fun _ => ih.bind fun _ => .refl _

theorem extends_callValue {call call' : Closure → List Value → Nat → Run Value}
    (h : ∀ f arguments line, Extends (call f arguments line) (call' f arguments line))
    (callee : Value) (arguments : List Value) (line : Nat) :
    Extends (callValue call callee arguments line) (callValue call' callee arguments line) := by
  cases callee with
  | function id f => exact extends_bind fun _ => h f arguments line
  | classValue type =>
    refine extends_bind fun _ => extends_bind fun created => ?_
    cases type.findMethod? initializerName with
    | none => exact .refl _
    | some initializer =>
      exact extends_bind fun bound => (h bound arguments line).bind fun _ => .refl _
  | _ => exact .refl _

/-- With one more unit of the budget everything is the same, or has run out of it before. -/
structure SettlesAt (budget : Nat) : Prop where
  evaluate (e : Expr) : Extends (evaluate budget e) (evaluate (budget + 1) e)
  execute (s : Stmt) : Extends (execute budget s) (execute (budget + 1) s)
  repeatWhile (condition : Expr) (body : Stmt) :
    Extends (repeatWhile budget condition body) (repeatWhile (budget + 1) condition body)
  call (f : Closure) (arguments : List Value) (line : Nat) :
    Extends (callClosure budget f arguments line) (callClosure (budget + 1) f arguments line)

section

variable {budget : Nat}

theorem SettlesAt.evaluate_succ (h : SettlesAt budget) (e : Expr) :
    Extends (LoxLang.evaluate (budget + 1) e) (LoxLang.evaluate (budget + 2) e) := by
  unfold LoxLang.evaluate
  cases e with
  | grouping inner => exact h.evaluate inner
  | unary op line operand => exact (h.evaluate operand).bind fun _ => .refl _
  | binary left op line right =>
    exact (h.evaluate left).bind fun _ => (h.evaluate right).bind fun _ => .refl _
  | logical left op line right =>
    exact (h.evaluate left).bind fun _ => (Extends.refl _).ite (h.evaluate right)
  | conditional condition thenBranch elseBranch =>
    exact (h.evaluate condition).bind fun _ =>
      (h.evaluate thenBranch).ite (h.evaluate elseBranch)
  | assign ref value => exact (h.evaluate value).bind fun _ => .refl _
  | call callee arguments line =>
    exact (h.evaluate callee).bind fun f => (extends_values h.evaluate arguments).bind fun vs =>
      extends_callValue h.call f vs line
  | get object name => exact (h.evaluate object).bind fun _ => .refl _
  | set object name value =>
    exact (h.evaluate object).bind fun _ => extends_bind fun _ =>
      (h.evaluate value).bind fun _ => .refl _
  | _ => exact .refl _

theorem SettlesAt.execute_succ (h : SettlesAt budget) (s : Stmt) :
    Extends (LoxLang.execute (budget + 1) s) (LoxLang.execute (budget + 2) s) := by
  unfold LoxLang.execute
  cases s with
  | expression value => exact (h.evaluate value).bind fun _ => .refl _
  | print value => exact (h.evaluate value).bind fun _ => .refl _
  | varDecl name initial =>
    cases initial with
    | none => exact .refl _
    | some e => exact (h.evaluate e).bind fun _ => .refl _
  | block body =>
    exact extends_bind fun _ => extends_bind fun frame =>
      (extends_inOrder h.execute body).within frame
  | ifThen condition thenBranch elseBranch =>
    refine (h.evaluate condition).bind fun _ => (h.execute thenBranch).ite ?_
    cases elseBranch with
    | none => exact .refl _
    | some other => exact h.execute other
  | whileDo condition body => exact h.repeatWhile condition body
  | returnWith line value =>
    cases value with
    | none => exact .refl _
    | some e => exact (h.evaluate e).bind fun _ => .refl _
  | _ => exact .refl _

theorem SettlesAt.repeatWhile_succ (h : SettlesAt budget) (condition : Expr) (body : Stmt) :
    Extends (LoxLang.repeatWhile (budget + 1) condition body)
      (LoxLang.repeatWhile (budget + 2) condition body) := by
  rw [LoxLang.repeatWhile, LoxLang.repeatWhile]
  refine (h.evaluate condition).bind fun _ => Extends.ite ?_ (.refl _)
  refine (h.execute body).bind fun completion => ?_
  cases completion with
  | normal => exact h.repeatWhile condition body
  | broke => exact .refl _
  | returned v => exact .refl _

theorem SettlesAt.call_succ (h : SettlesAt budget) (f : Closure) (arguments : List Value)
    (line : Nat) :
    Extends (callClosure (budget + 1) f arguments line)
      (callClosure (budget + 2) f arguments line) := by
  rw [callClosure, callClosure]
  exact extends_bind fun frame =>
    ((extends_inOrder h.execute _).within frame).bind fun _ => .refl _

end

/-- Greater budgets change nothing but that they are not used up. -/
theorem settlesAt (budget : Nat) : SettlesAt budget := by
  induction budget with
  | zero =>
    constructor
    · intro e
      rw [evaluate]
      exact extends_exhausted
    · intro s
      rw [execute]
      exact extends_exhausted
    · intro condition body
      rw [repeatWhile]
      exact extends_exhausted
    · intro f arguments line
      rw [callClosure]
      exact extends_exhausted
  | succ budget ih =>
    exact ⟨ih.evaluate_succ, ih.execute_succ, ih.repeatWhile_succ, ih.call_succ⟩

/-! ## What runs come to -/

/-- A run that does the same with any greater budget, if it does not run out of it. -/
def Grows (run : Nat → Run α) : Prop :=
  ∀ budget, Extends (run budget) (run (budget + 1))

theorem grows_evaluate (e : Expr) : Grows (evaluate · e) :=
  fun budget => (settlesAt budget).evaluate e

theorem grows_execute (s : Stmt) : Grows (execute · s) :=
  fun budget => (settlesAt budget).execute s

/-- How a run ends, and the machine that it leaves. -/
abbrev RunResult (α : Type) := EStateM.Result Stop Machine α

/-- A run that has not run out of its budget. -/
def Finished (r : RunResult α) : Prop :=
  ∀ m, r ≠ .error .exhausted m

section

variable {run : Nat → Run α} {m : Machine} {r r' : RunResult α} {budget : Nat}

theorem Grows.of_le (h : Grows run) {more : Nat} (hle : budget ≤ more)
    (finished : Finished (run budget m)) : run more m = run budget m := by
  induction hle with
  | refl => rfl
  | @step more _ ih =>
    rcases h more m with ⟨m', hexhausted⟩ | hsame
    · exact absurd (ih.symm.trans hexhausted) (finished m')
    · exact hsame.trans ih

/-- What a run comes to, with any budget that is great enough. -/
def Comes (run : Nat → Run α) (m : Machine) (r : RunResult α) : Prop :=
  (∃ budget, run budget m = r) ∧ Finished r

theorem comes_of_run (h : run budget m = r) (finished : Finished r) : Comes run m r :=
  ⟨⟨budget, h⟩, finished⟩

/-- All budgets from some one on are great enough. -/
theorem Comes.eventually (h : Comes run m r) (grows : Grows run) :
    ∃ enough, ∀ budget, enough ≤ budget → run budget m = r := by
  obtain ⟨⟨enough, rfl⟩, finished⟩ := h
  exact ⟨enough, fun budget hle => grows.of_le hle finished⟩

theorem Comes.unique (h : Comes run m r) (h' : Comes run m r') (grows : Grows run) : r = r' := by
  obtain ⟨enough, hrun⟩ := h.eventually grows
  obtain ⟨enough', hrun'⟩ := h'.eventually grows
  have hleft := hrun (max enough enough') (Nat.le_max_left _ _)
  have hright := hrun' (max enough enough') (Nat.le_max_right _ _)
  exact hleft.symm.trans hright

theorem finished_ok (a : α) (m : Machine) : Finished (.ok a m : RunResult α) := by
  intro m' h
  cases h

/-- A reason to stop other than a budget that is used up stays one. -/
theorem Finished.error {β : Type} {stop : Stop}
    (h : Finished (.error stop m : RunResult α)) (m' : Machine) :
    Finished (.error stop m' : RunResult β) := by
  intro m'' h'
  cases h'
  exact h m rfl

end

/-- What the evaluation of an expression comes to. -/
def Evaluates (e : Expr) (m : Machine) (r : RunResult Value) : Prop :=
  Comes (evaluate · e) m r

/-- What the execution of a statement comes to. -/
def Executes (s : Stmt) (m : Machine) (r : RunResult Completion) : Prop :=
  Comes (execute · s) m r

theorem Executes.exists_succ {s : Stmt} {m : Machine} {r : RunResult Completion}
    (h : Executes s m r) : Finished r ∧ ∃ budget, execute (budget + 1) s m = r := by
  obtain ⟨⟨budget, hrun⟩, finished⟩ := h
  refine ⟨finished, ?_⟩
  cases budget with
  | zero =>
    unfold execute at hrun
    exact absurd hrun.symm (finished m)
  | succ budget => exact ⟨budget, hrun⟩

end LoxLang
