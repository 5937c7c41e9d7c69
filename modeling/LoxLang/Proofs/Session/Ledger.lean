import LoxLang.Proofs.Evaluation.Ledger
import LoxLang.Proofs.Session.Gating

/-!
# Ledgers of sessions

The acts of all runs of a session, the latest first. An input that is turned down adds none, and
the others add those of their runs (`Session.acts`), which are audited.
-/

namespace LoxLang

namespace Session

variable {α β : Type}

/-- The acts behind a tree that has passed the gate, if it has, and those of its run, if its
names are in order. -/
def actsOf (s : Session) (past : List Entry) (tree : Except (List Diagnostic) α)
    (program : α → List Stmt) (audit : α → Audit β) : List Entry :=
  match tree with
  | .error _ => past
  | .ok tree =>
    match Scoping.resolve (program tree) with
    | .error _ => past
    | .ok added => (Audit.closing (audit tree ⟨s.machine.binding added, past⟩)).entries

/-- The acts behind an input: those that are past and those of its run, if it is run. -/
def acts (budget : Nat) (s : Session) (past : List Entry) (input : Input) : List Entry :=
  match input.job with
  | .nothing => past
  | .program source =>
    s.actsOf past (gate source (readProgram (tokensOf source) s.nextId)) id
      (Audit.interpret budget)
  | .expression source =>
    s.actsOf past (gate source (readExpression (tokensOf source) s.nextId))
      (fun e => [.expression e]) (Audit.evaluate budget)

/-- The acts behind an event. -/
def actsAfter (s : Session) (past : List Entry) : Event → List Entry
  | .input budget input => s.acts budget past input
  | .output _ => past

/-- The acts behind events, one after the other. -/
def actsThrough (s : Session) (past : List Entry) : List Event → List Entry
  | [] => past
  | event :: rest => (s.after event).actsThrough (s.actsAfter past event) rest

/-- What became of a source, by the end of its run. -/
def settled (s : Session) : EStateM.Result Stop Machine α → Outcome α
  | .ok a m => ⟨.ok a, { s with machine := m }⟩
  | .error stop m => ⟨.error [.stopped stop], { s with machine := m }⟩

theorem perform_eq (s : Session) (added : Bindings) (run : Run α) :
    s.perform added run = s.settled (run (s.machine.binding added)) := by
  obtain ⟨machine, nextId, resolver⟩ := s
  unfold perform settled Machine.binding
  cases hrun : run { machine with bindings := machine.bindings.merge added } <;> simp only [hrun]

end Session

/-! ## What audited runs keep -/

namespace Session

variable {α β : Type} {P : Arrays → List Entry → Prop} {past : List Entry}

theorem acts_perform (keep : Audits.Keep P) (s : Session) {audit : Audit β} {run : Run β}
    (h : Audits audit run) (added : Bindings) (before : P s.machine.arrays past) :
    P (s.perform added run).session.machine.arrays
      (Audit.closing (audit ⟨s.machine.binding added, past⟩)).entries := by
  have hkept := keep h ⟨s.machine.binding added, past⟩ before
  have houtcome : _ = run (s.machine.binding added) := h.outcome ⟨s.machine.binding added, past⟩
  rw [perform_eq, ← houtcome]
  cases haudit : audit ⟨s.machine.binding added, past⟩ <;> rwa [haudit] at hkept

theorem acts_proceed (keep : Audits.Keep P) (s : Session) (tree : Except (List Diagnostic) α)
    (program : α → List Stmt) {audit : α → Audit β} {run : α → Run β}
    (h : ∀ tree, Audits (audit tree) (run tree)) (before : P s.machine.arrays past) :
    P (s.proceed tree program run).session.machine.arrays
      (s.actsOf past tree program audit) := by
  unfold proceed actsOf
  cases tree with
  | error diagnostics => exact before
  | ok tree =>
    obtain ⟨resolver, hresolver⟩ := exists_resolveWith s.resolver (program tree)
    simp only [hresolver]
    cases Scoping.resolve (program tree) with
    | error problems => exact before
    | ok added => exact acts_perform keep { s with resolver := resolver } (h tree) added before

theorem acts_take (keep : Audits.Keep P) (budget : Nat) (s : Session) (input : Input)
    (before : P s.machine.arrays past) :
    P (s.take budget input).session.machine.arrays (s.acts budget past input) := by
  rw [take_eq]
  unfold acts
  cases input.job with
  | nothing => exact before
  | program source =>
    exact acts_proceed keep { s with nextId := _ } _ id (audits_interpret budget) before
  | expression source =>
    exact acts_proceed keep { s with nextId := _ } _ _ (auditsAt budget).evaluate before

/-- What audited runs keep holds behind any events, if it holds before them. -/
theorem acts_through (keep : Audits.Keep P) (events : List Event) (s : Session)
    (before : P s.machine.arrays past) :
    P (s.through events).machine.arrays (s.actsThrough past events) := by
  induction events generalizing s past with
  | nil => exact before
  | cons event rest ih =>
    refine ih (s.after event) ?_
    cases event with
    | input budget input => exact acts_take keep budget s input before
    | output sink => exact before

end Session

end LoxLang
