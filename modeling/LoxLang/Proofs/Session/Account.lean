import LoxLang.Proofs.Evaluation.Steps
import LoxLang.Proofs.Grammar.Formation
import LoxLang.Proofs.Lexical.Words
import LoxLang.Proofs.Session.History

/-!
# Accounts of sessions

An account goes with a session: it has the records of all frames and the trees that have been
accepted so far, and watches each run. What it says of the session itself is what happens
without it (`Account.outcome_take`, `Account.outcome_through`).
-/

namespace LoxLang

/-- A session with the records of its frames and the trees it has accepted, the latest first. -/
structure Account where
  session : Session
  records : Array Record
  accepted : List (List Stmt)

/-- What became of a source, the account behind it, and the steps of the run, the latest
first. -/
structure Watched (α : Type) where
  result : Except (List Diagnostic) α
  account : Account
  steps : List Step

/-- What became of a source without what was watched. -/
def Watched.outcome {α : Type} (w : Watched α) : Outcome α :=
  ⟨w.result, w.account.session⟩

/-- Another form of the result. -/
def Watched.map {α β : Type} (f : α → β) (w : Watched α) : Watched β :=
  ⟨w.result.map f, w.account, w.steps⟩

namespace Account

variable {α β : Type}

/-- The account of a session before any source. -/
def start (host : Host) (sink : Sink) : Account :=
  ⟨Session.start host sink, #[], []⟩

/-- The machine of a session and the records of its frames. -/
def scene (a : Account) : Scene :=
  ⟨a.session.machine, a.records⟩

/-- The sites of the trees that have been accepted. -/
def Known (a : Account) (x : Site) : Prop :=
  ∃ program ∈ a.accepted, x ∈ sitesInBody [] program

/-! ## Inputs that are watched -/

/-- The scene at which the run of a resolved tree starts. -/
def opening (a : Account) (bindings : Bindings) : Scene :=
  ⟨{ a.session.machine with bindings := a.session.machine.bindings.merge bindings }, a.records⟩

/-- Watch the run of a resolved tree. -/
def perform (a : Account) (bindings : Bindings) (program : List Stmt) (watch : Watch α) :
    Watched α :=
  match watch ⟨a.opening bindings, []⟩ with
  | .ok v c =>
    ⟨.ok v, ⟨{ a.session with machine := c.scene.machine }, c.scene.records,
      program :: a.accepted⟩, c.steps⟩
  | .error stop c =>
    ⟨.error [.stopped stop], ⟨{ a.session with machine := c.scene.machine }, c.scene.records,
      program :: a.accepted⟩, c.steps⟩

/-- Resolve a tree that has passed the gate, and watch its run. -/
def proceed (a : Account) (tree : Except (List Diagnostic) α) (program : α → List Stmt)
    (watch : α → Watch β) : Watched β :=
  match tree with
  | .error diagnostics => ⟨.error diagnostics, a, []⟩
  | .ok tree =>
    match Scoping.resolveWith a.session.resolver (program tree) with
    | (.error problems, resolver) =>
      ⟨.error (problems.map .scoping), { a with session.resolver := resolver }, []⟩
    | (.ok bindings, resolver) =>
      perform { a with session.resolver := resolver } bindings (program tree) (watch tree)

/-- Watch a source that is run as a program. -/
def run (budget : Nat) (a : Account) (source : List UInt8) : Watched Unit :=
  let reading := readProgram (tokensOf source) a.session.nextId
  proceed { a with session.nextId := reading.nextId } (Session.gate source reading) id
    (Watch.interpret budget)

/-- Watch a source that is evaluated as an expression. -/
def evaluate (budget : Nat) (a : Account) (source : List UInt8) : Watched Value :=
  let reading := readExpression (tokensOf source) a.session.nextId
  proceed { a with session.nextId := reading.nextId } (Session.gate source reading)
    (fun e => [.expression e]) (Watch.evaluate budget)

/-- Watch what becomes of an input. -/
def take (budget : Nat) (a : Account) (input : Input) : Watched (Option Value) :=
  match input.job with
  | .nothing => ⟨.ok none, a, []⟩
  | .program source => (a.run budget source).map fun _ => none
  | .expression source => (a.evaluate budget source).map some

/-- The account behind an event. -/
def after (a : Account) : Event → Account
  | .input budget input => (a.take budget input).account
  | .output sink => { a with session.machine.sink := sink }

/-- The account behind events, one after the other. -/
def through (a : Account) : List Event → Account
  | [] => a
  | event :: rest => (a.after event).through rest

/-! ## The session of an account -/

theorem outcome_perform {watch : Watch α} {run : Run α} (h : Watch.Erases watch run)
    (a : Account) (bindings : Bindings) (program : List Stmt) :
    (a.perform bindings program watch).outcome = a.session.perform bindings run := by
  have herased : Watch.outcome (watch ⟨a.opening bindings, []⟩) =
      run { a.session.machine with bindings := a.session.machine.bindings.merge bindings } :=
    h ⟨a.opening bindings, []⟩
  unfold perform Session.perform
  cases hwatch : watch ⟨a.opening bindings, []⟩ with
  | ok v c =>
    rw [hwatch] at herased
    simp only [← herased]
    rfl
  | error stop c =>
    rw [hwatch] at herased
    simp only [← herased]
    rfl

theorem outcome_proceed {watch : α → Watch β} {run : α → Run β}
    (h : ∀ tree, Watch.Erases (watch tree) (run tree)) (a : Account)
    (tree : Except (List Diagnostic) α) (program : α → List Stmt) :
    (a.proceed tree program watch).outcome = a.session.proceed tree program run := by
  unfold proceed Session.proceed
  cases tree with
  | error diagnostics => rfl
  | ok tree =>
    rcases hresolved : Scoping.resolveWith a.session.resolver (program tree) with
      ⟨result, resolver⟩
    cases result with
    | error problems =>
      simp only [hresolved]
      rfl
    | ok bindings =>
      simp only [hresolved]
      exact outcome_perform (h tree) { a with session.resolver := resolver } bindings _

theorem outcome_run (budget : Nat) (a : Account) (source : List UInt8) :
    (a.run budget source).outcome = a.session.run budget source :=
  outcome_proceed (Watch.erases_interpret budget) { a with session.nextId := _ } _ id

theorem outcome_evaluate (budget : Nat) (a : Account) (source : List UInt8) :
    (a.evaluate budget source).outcome = a.session.evaluate budget source :=
  outcome_proceed (Watch.erases_evaluate budget) { a with session.nextId := _ } _ _

/-- What an account says of an input is what becomes of it. -/
theorem outcome_take (budget : Nat) (a : Account) (input : Input) :
    (a.take budget input).outcome = a.session.take budget input := by
  rw [Session.take_eq]
  unfold take
  cases input.job with
  | nothing => rfl
  | program source => exact congrArg (Outcome.map fun _ => none) (outcome_run budget a source)
  | expression source => exact congrArg (Outcome.map some) (outcome_evaluate budget a source)

/-- An account behind events is that of the session behind them. -/
theorem session_through (a : Account) (events : List Event) :
    (a.through events).session = a.session.through events := by
  induction events generalizing a with
  | nil => rfl
  | cons event rest ih =>
    have hafter : (a.after event).session = a.session.after event := by
      cases event with
      | input budget input => exact congrArg Outcome.session (outcome_take budget a input)
      | output sink => rfl
    unfold through Session.through
    rw [ih, hafter]

/-- What an input comes to is what the watched input does. -/
theorem outcome_through (host : Host) (sink : Sink) (events : List Event) (budget : Nat)
    (input : Input) :
    (((start host sink).through events).take budget input).outcome =
      ((Session.start host sink).through events).take budget input := by
  have hsession : ((start host sink).through events).session =
      (Session.start host sink).through events :=
    session_through (start host sink) events
  rw [outcome_take, hsession]

end Account

end LoxLang
