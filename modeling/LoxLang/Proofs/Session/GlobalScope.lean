import LoxLang.Proofs.Evaluation.Tidy
import LoxLang.Proofs.Session.Gating

/-!
# Between two inputs

However an expression, a statement or a program ends, the current frame behind it is the one before
it (`Restores`). So a session is outside all frames between two inputs, whatever they were and
however they ended, and the next one declares and reads globals (`global_scope_restored`).

The frame of a superclass may as well be made the current one and put back while methods are made
in it (`newClassSwitching_eq`), and a program that gives up its frame where a statement stops
(`interpretUnwinding`) gives up none, as it is run outside all frames.
-/

namespace LoxLang

variable {α β : Type} {run : Run α} {m : Machine}

/-! ## Frames made current step by step -/

/-- Make a frame the current one, or none. -/
def Run.switch (frame : Option FrameId) : Run Unit := fun m =>
  .ok () { m with current := frame }

/-- A new class whose methods are made with the frame of its superclass as the current one. Nothing
can stop between the two switches. -/
def newClassSwitching (name : Name) (extended : Option Class) (composed : Methods)
    (methods classMethods : List NamedFunction) : Run Class := do
  let enclosing ← Run.current
  if let some c := extended then
    let frame ← Run.newFrame enclosing
    Run.define frame (.classValue c)
    Run.switch (some frame)
  let own := addBody composed methods (← Run.current)
  let ofClass := classMethodTable classMethods (← Run.current)
  Run.switch enclosing
  let metaclass := Class.mk (← Run.newObject) (name.text ++ " metaclass")
    (extended.bind Class.metaclass) ofClass none
  return Class.mk (← Run.newObject) name.text extended own (some metaclass)

/-- The frame of the methods need not be the current one for them to be made in it. -/
theorem newClassSwitching_eq (name : Name) (extended : Option Class) (composed : Methods)
    (methods classMethods : List NamedFunction) :
    newClassSwitching name extended composed methods classMethods = (do
      let frame ← methodFrame extended
      newClass name extended composed frame methods classMethods) := by
  funext m
  cases extended with
  | none => rfl
  | some c => rfl

/-- Execute the statements of a program in order, and give up the current frame if one stops. -/
def interpretUnwinding (budget : Nat) : List Stmt → Run Unit
  | [] => pure ()
  | statement :: rest => fun m =>
    match execute budget statement m with
    | .ok _ m => interpretUnwinding budget rest m
    | .error stop m => .error stop { m with current := none }

/-! ## Every way out -/

/-- However a run ends, the current frame is the one before it. -/
def Restores (run : Run α) : Prop :=
  ∀ m, Ensures run m (fun _ m' => m'.current = m.current) fun _ m' => m'.current = m.current

theorem Tidy.restores (h : Tidy run) : Restores run :=
  fun m => (h m).mono (fun _ _ honward => honward.current) fun _ _ honward => honward.current

theorem tidy_interpret (budget : Nat) (program : List Stmt) : Tidy (interpret budget program) := by
  induction program with
  | nil => exact tidy_pure ()
  | cons statement rest ih => exact ((tidyAt budget).execute statement).bind fun _ => ih

/-- Outside all frames there is none to be given up. -/
theorem interpretUnwinding_eq (budget : Nat) (program : List Stmt) (h : m.current = none) :
    interpretUnwinding budget program m = interpret budget program m := by
  induction program generalizing m with
  | nil => rfl
  | cons statement rest ih =>
    have hrestores := (((tidyAt budget).execute statement).restores m)
    rw [h] at hrestores
    show _ = EStateM.bind (execute budget statement) (fun _ => interpret budget rest) m
    unfold interpretUnwinding EStateM.bind
    cases hrun : execute budget statement m with
    | ok completion m' => exact ih (hrestores.of_ok hrun)
    | error stop m' =>
      have hcurrent : m'.current = none := hrestores.of_error hrun
      show EStateM.Result.error stop { m' with current := none } = .error stop m'
      rw [← hcurrent]

/-! ## Outside all frames -/

/-- A machine outside all frames. Whatever occurrences are bound to, variables are globals. -/
structure Machine.AtGlobalScope (m : Machine) : Prop where
  current : m.current = none
  declares : ∀ name value,
    Run.declare name value m = .ok () { m with globals := m.globals.insert name value }
  reads : ∀ id name line, Run.lookUp id name line m = globalValue name line m
  assigns : ∀ id name line value,
    Run.assign id name line value m = assignGlobal name line value m
  /-- The initial value of a variable may come from calls, but none of their frames is left. -/
  initializes : ∀ budget name initial value m', evaluate budget initial m = .ok value m' →
    execute (budget + 1) (.varDecl name (some initial)) m =
      .ok .normal { m' with globals := m'.globals.insert name.text value }

theorem declare_of_none (h : m.current = none) (name : String) (value : Value) :
    Run.declare name value m = .ok () { m with globals := m.globals.insert name value } := by
  unfold Run.declare
  rw [h]

theorem boundHere?_of_none (h : m.current = none) (id : RefId) : boundHere? id m = .ok none m := by
  unfold boundHere?
  rw [h]
  cases m.bindings[id]? <;> rfl

theorem Machine.AtGlobalScope.of_none (h : m.current = none) : m.AtGlobalScope where
  current := h
  declares := declare_of_none h
  reads id name line := by
    rw [lookUp_eq]
    show EStateM.bind (boundHere? id) _ m = _
    unfold EStateM.bind
    rw [boundHere?_of_none h]
  assigns id name line value := by
    rw [assign_eq]
    show EStateM.bind (boundHere? id) _ m = _
    unfold EStateM.bind
    rw [boundHere?_of_none h]
  initializes budget name initial value m' hvalue := by
    -- The value may be evaluated in further scopes, but all of them are left behind it.
    have hcurrent : m'.current = none :=
      (((tidyAt budget).evaluate initial).restores m).of_ok hvalue |>.trans h
    unfold execute
    show EStateM.bind (evaluate budget initial) _ m = _
    unfold EStateM.bind
    rw [hvalue]
    show EStateM.bind (Run.declare name.text value) _ m' = _
    unfold EStateM.bind
    rw [declare_of_none hcurrent]
    rfl

/-! ## Sessions -/

namespace Session

variable {s : Session}

theorem current_of_ran {f : α → β} {o : Outcome β} (h : Restores run) (ran : Ran run m f o) :
    o.session.machine.current = m.current := by
  unfold Ran at ran
  cases hrun : run m with
  | ok a m' =>
    rw [hrun] at ran
    rw [ran.2]
    exact (h m).of_ok hrun
  | error stop m' =>
    rw [hrun] at ran
    rw [ran.2]
    exact (h m).of_error hrun

/-- An input that is turned down changes nothing, and one that is run puts its frames back. -/
theorem current_take (budget : Nat) (s : Session) (input : Input) :
    (s.take budget input).session.machine.current = s.machine.current := by
  rcases take_gated budget s input with ⟨-, -, hmachine⟩ | ⟨-, hrun⟩
  · rw [hmachine]
  · generalize s.take budget input = o at hrun
    generalize input.job = job at hrun
    cases hrun with
    | nothing => rfl
    | @program source tree added _ read resolved ran =>
      show o.session.machine.current = (s.machine.binding added).current
      exact current_of_ran (tidy_interpret budget tree).restores ran
    | @expression source e added _ read resolved ran =>
      show o.session.machine.current = (s.machine.binding added).current
      exact current_of_ran ((tidyAt budget).evaluate e).restores ran

theorem current_through (events : List Event) :
    (s.through events).machine.current = s.machine.current := by
  induction events generalizing s with
  | nil => rfl
  | cons event rest ih =>
    refine ih.trans ?_
    cases event with
    | input budget input => exact current_take budget s input
    | output sink => rfl

end Session

/-- Every statement and every expression, started anywhere and however it ends, leaves the current
frame as it was. So behind any inputs a session is outside all frames, also before each statement of
the next program or the next expression, and where a program gives up its frame as it fails, there
is none to be given up. -/
theorem global_scope_restored :
    (∀ budget statement, Restores (execute budget statement)) ∧
    (∀ budget e, Restores (evaluate budget e)) ∧
    ∀ host sink events,
      let s := (Session.start host sink).through events
      s.machine.AtGlobalScope ∧
      (∀ budget input, (s.take budget input).session.machine.AtGlobalScope) ∧
      ∀ budget added program,
        (s.machine.binding added).AtGlobalScope ∧
        interpretUnwinding budget program (s.machine.binding added) =
          interpret budget program (s.machine.binding added) ∧
        Ensures (interpret budget program) (s.machine.binding added)
          (fun _ m => m.AtGlobalScope) fun _ m => m.AtGlobalScope := by
  refine ⟨fun budget s => ((tidyAt budget).execute s).restores,
    fun budget e => ((tidyAt budget).evaluate e).restores, ?_⟩
  intro host sink events s
  have hnone : s.machine.current = none := Session.current_through events
  refine ⟨.of_none hnone, ?_, ?_⟩
  · intro budget input
    exact .of_none ((Session.current_take budget s input).trans hnone)
  · intro budget added program
    have hstart : (s.machine.binding added).current = none := hnone
    have hrestores := (tidy_interpret budget program).restores (s.machine.binding added)
    refine ⟨.of_none hstart, interpretUnwinding_eq budget program hstart, ?_⟩
    exact hrestores.mono (fun _ m h => .of_none (h.trans hstart))
      fun _ m h => .of_none (h.trans hstart)

end LoxLang
