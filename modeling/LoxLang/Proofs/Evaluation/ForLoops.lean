import LoxLang.Proofs.Evaluation.Budgets
import LoxLang.Proofs.Evaluation.Completions
import LoxLang.Proofs.Evaluation.Tidy
import LoxLang.Proofs.Grammar.Clauses

/-!
# The rounds of a `for` loop

What a `for` loop does, said from its clauses and its body. The first clause is executed once, in a
scope of its own that is the current one in all rounds (`ForLoop.Runs`). Before each round the
condition decides whether there is one (`ForLoop.Rounds`), and in a round the increment comes behind
the body if this completes normally, and only then (`ForLoop.Round`). The statement that the loop is
read as does just this (`executes_tree_iff`): a step lemma for each relation goes from runs with a
budget to it and back.
-/

namespace LoxLang

open Evaluation

variable {m m₁ m₂ m' : Machine} {v : Value} {stop : Stop} {completion : Completion}

/-! ## Statements one at a time -/

/-- A machine with another current frame. -/
def Machine.backIn (m : Machine) (frame : Option FrameId) : Machine :=
  { m with current := frame }

theorem Machine.backIn_eq_self (h : m₁.current = m.current) : m₁.backIn m.current = m₁ := by
  rw [← h]
  rfl

theorem Executes.onward {s : Stmt} (h : Executes s m (.ok completion m₁)) : m.Onward m₁ := by
  obtain ⟨⟨budget, hrun⟩, -⟩ := h
  exact ((tidyAt budget).execute s m).of_ok hrun

theorem Executes.onward_error {s : Stmt} (h : Executes s m (.error stop m₁)) : m.Onward m₁ := by
  obtain ⟨⟨budget, hrun⟩, -⟩ := h
  exact ((tidyAt budget).execute s m).of_error hrun

theorem Evaluates.onward {e : Expr} (h : Evaluates e m (.ok v m₁)) : m.Onward m₁ := by
  obtain ⟨⟨budget, hrun⟩, -⟩ := h
  exact ((tidyAt budget).evaluate e m).of_ok hrun

theorem evaluates_literal (l : Literal) (m : Machine) :
    Evaluates (.literal l) m (.ok l.value m) :=
  comes_of_run (show evaluate 1 (.literal l) m = .ok l.value m from rfl) (finished_ok _ _)

/-- An expression as a statement. -/
inductive ForValue (e : Expr) (m : Machine) : RunResult Completion → Prop
  | value {v : Value} {m₁ : Machine} (h : Evaluates e m (.ok v m₁)) :
      ForValue e m (.ok .normal m₁)
  | stops {stop : Stop} {m₁ : Machine} (h : Evaluates e m (.error stop m₁)) :
      ForValue e m (.error stop m₁)

theorem executes_expression_iff {e : Expr} {r : RunResult Completion} :
    Executes (.expression e) m r ↔ ForValue e m r := by
  constructor
  · intro h
    obtain ⟨finished, budget, rfl⟩ := h.exists_succ
    simp only [execute, bind, EStateM.bind] at finished ⊢
    cases hrun : evaluate budget e m with
    | ok v m₁ => exact .value (comes_of_run hrun (finished_ok v m₁))
    | error stop m₁ =>
      rw [hrun] at finished
      exact .stops (comes_of_run hrun (finished.error m₁))
  · intro h
    cases h with
    | @value v m₁ h =>
      obtain ⟨⟨budget, hrun⟩, -⟩ := h
      refine ⟨⟨budget + 1, ?_⟩, finished_ok _ _⟩
      simp only [execute, bind, EStateM.bind, hrun]
      rfl
    | @stops stop m₁ h =>
      obtain ⟨⟨budget, hrun⟩, finished⟩ := h
      refine ⟨⟨budget + 1, ?_⟩, finished.error m₁⟩
      simp only [execute, bind, EStateM.bind, hrun]

/-- Two statements in a scope of their own, of which the second is executed only if the first
completes normally. -/
inductive InTurn (s s' : Stmt) (m : Machine) : RunResult Completion → Prop
  | both {r : RunResult Completion} {m₁ : Machine} (first : Executes s m.entered (.ok .normal m₁))
      (second : Executes s' m₁ r) : InTurn s s' m (Run.putBack m.current r)
  | leaves {completion : Completion} {m₁ : Machine}
      (first : Executes s m.entered (.ok completion m₁)) (abrupt : completion ≠ .normal) :
      InTurn s s' m (.ok completion (m₁.backIn m.current))
  | stops {stop : Stop} {m₁ : Machine} (first : Executes s m.entered (.error stop m₁)) :
      InTurn s s' m (.error stop (m₁.backIn m.current))

theorem inTurn_of_executes {s s' : Stmt} {r : RunResult Completion}
    (h : Executes (.block [s, s']) m r) : InTurn s s' m r := by
  obtain ⟨finished, budget, rfl⟩ := h.exists_succ
  rw [execute_block] at finished ⊢
  cases hfirst : execute budget s m.entered with
  | error stop m₁ =>
    rw [result_stops hfirst] at finished ⊢
    exact .stops (comes_of_run hfirst (finished.error m₁))
  | ok completion m₁ =>
    by_cases hnormal : completion = .normal
    · subst hnormal
      rw [result_next hfirst, result_single] at finished ⊢
      refine .both (comes_of_run hfirst (finished_ok _ _)) (comes_of_run rfl ?_)
      -- Putting a frame back does not hide that the budget was used up.
      intro m₂ hsecond
      rw [hsecond] at finished
      exact finished _ rfl
    · rw [result_abrupt hfirst hnormal]
      exact .leaves (comes_of_run hfirst (finished_ok _ _)) hnormal

theorem InTurn.executes {s s' : Stmt} {r : RunResult Completion} (h : InTurn s s' m r) :
    Executes (.block [s, s']) m r := by
  cases h with
  | @both r m₁ first second =>
    obtain ⟨enough, hfirst⟩ := first.eventually (grows_execute s)
    obtain ⟨enough', hsecond⟩ := second.eventually (grows_execute s')
    -- Each statement has a budget that is enough for it; the greater one is enough for both.
    refine ⟨⟨max enough enough' + 1, ?_⟩, ?_⟩
    · show execute _ _ _ = _
      rw [execute_block, result_next (hfirst _ (Nat.le_max_left _ _)), result_single,
        hsecond _ (Nat.le_max_right _ _)]
    · have finished := second.2
      cases r with
      | ok completion m₂ => exact finished_ok _ _
      | error stop m₂ => exact finished.error _
  | @leaves completion m₁ first abrupt =>
    obtain ⟨⟨budget, hrun⟩, -⟩ := first
    refine ⟨⟨budget + 1, ?_⟩, finished_ok _ _⟩
    show execute _ _ _ = _
    rw [execute_block, result_abrupt hrun abrupt]
    rfl
  | @stops stop m₁ first =>
    obtain ⟨⟨budget, hrun⟩, finished⟩ := first
    refine ⟨⟨budget + 1, ?_⟩, finished.error _⟩
    show execute _ _ _ = _
    rw [execute_block, result_stops hrun]
    rfl

theorem executes_pair_iff {s s' : Stmt} {r : RunResult Completion} :
    Executes (.block [s, s']) m r ↔ InTurn s s' m r :=
  ⟨inTurn_of_executes, InTurn.executes⟩

namespace ForLoop

/-! ## The meaning of a loop -/

/-- What the condition says in a state. One that is left out always holds. -/
inductive Decides (f : ForLoop) (m : Machine) : RunResult Bool → Prop
  | absent (h : f.condition = none) : Decides f m (.ok true m)
  | value {e : Expr} {v : Value} {m₁ : Machine} (h : f.condition = some e)
      (he : Evaluates e m (.ok v m₁)) : Decides f m (.ok v.isTruthy m₁)
  | stops {e : Expr} {stop : Stop} {m₁ : Machine} (h : f.condition = some e)
      (he : Evaluates e m (.error stop m₁)) : Decides f m (.error stop m₁)

/-- What the increment does in a state. -/
inductive Advances (f : ForLoop) (m : Machine) : RunResult Unit → Prop
  | absent (h : f.increment = none) : Advances f m (.ok () m)
  | value {e : Expr} {v : Value} {m₁ : Machine} (h : f.increment = some e)
      (he : Evaluates e m (.ok v m₁)) : Advances f m (.ok () m₁)
  | stops {e : Expr} {stop : Stop} {m₁ : Machine} (h : f.increment = some e)
      (he : Evaluates e m (.error stop m₁)) : Advances f m (.error stop m₁)

/-- Where a round starts: if there is an increment, then in a scope of its own. -/
def opened (f : ForLoop) (m : Machine) : Machine :=
  if f.increment.isSome then m.entered else m

/-- What a round does: the body, and the increment behind a body that completes normally. -/
inductive Round (f : ForLoop) (m : Machine) : RunResult Completion → Prop
  | completes {m₁ m₂ : Machine} (body : Executes f.body (f.opened m) (.ok .normal m₁))
      (advance : f.Advances m₁ (.ok () m₂)) : Round f m (.ok .normal (m₂.backIn m.current))
  | advanceStops {stop : Stop} {m₁ m₂ : Machine}
      (body : Executes f.body (f.opened m) (.ok .normal m₁))
      (advance : f.Advances m₁ (.error stop m₂)) : Round f m (.error stop (m₂.backIn m.current))
  | leaves {completion : Completion} {m₁ : Machine}
      (body : Executes f.body (f.opened m) (.ok completion m₁)) (abrupt : completion ≠ .normal) :
      Round f m (.ok completion (m₁.backIn m.current))
  | stops {stop : Stop} {m₁ : Machine} (body : Executes f.body (f.opened m) (.error stop m₁)) :
      Round f m (.error stop (m₁.backIn m.current))

/-- What all rounds from a state on do. Each of them, and the condition before it, has the frame
`scope` around it. -/
inductive Rounds (f : ForLoop) (scope : Option FrameId) : Machine → RunResult Completion → Prop
  | ends {m m₁ : Machine} (here : m.current = scope) (condition : f.Decides m (.ok false m₁)) :
      Rounds f scope m (.ok .normal m₁)
  | undecided {stop : Stop} {m m₁ : Machine} (here : m.current = scope)
      (condition : f.Decides m (.error stop m₁)) : Rounds f scope m (.error stop m₁)
  | next {m m₁ m₂ : Machine} {r : RunResult Completion} (here : m.current = scope)
      (condition : f.Decides m (.ok true m₁)) (round : f.Round m₁ (.ok .normal m₂))
      (rest : Rounds f scope m₂ r) : Rounds f scope m r
  | breaks {m m₁ m₂ : Machine} (here : m.current = scope)
      (condition : f.Decides m (.ok true m₁)) (round : f.Round m₁ (.ok .broke m₂)) :
      Rounds f scope m (.ok .normal m₂)
  | returns {m m₁ m₂ : Machine} {v : Value} (here : m.current = scope)
      (condition : f.Decides m (.ok true m₁)) (round : f.Round m₁ (.ok (.returned v) m₂)) :
      Rounds f scope m (.ok (.returned v) m₂)
  | stops {m m₁ m₂ : Machine} {stop : Stop} (here : m.current = scope)
      (condition : f.Decides m (.ok true m₁)) (round : f.Round m₁ (.error stop m₂)) :
      Rounds f scope m (.error stop m₂)

/-- What a loop does. A first clause is executed once, in a scope of its own around all rounds. -/
inductive Runs (f : ForLoop) (m : Machine) : RunResult Completion → Prop
  | bare {r : RunResult Completion} (h : f.initial = none) (rounds : f.Rounds m.current m r) :
      Runs f m r
  | framed {s : Stmt} {m₁ : Machine} {r : RunResult Completion} (h : f.initial = some s)
      (first : Executes s m.entered (.ok .normal m₁))
      (rounds : f.Rounds (some m.frames.next) m₁ r) : Runs f m (Run.putBack m.current r)
  | initialStops {s : Stmt} {stop : Stop} {m₁ : Machine} (h : f.initial = some s)
      (first : Executes s m.entered (.error stop m₁)) :
      Runs f m (.error stop (m₁.backIn m.current))

variable {f : ForLoop} {scope : Option FrameId}

/-! ## One part of a loop -/

theorem decides_of_evaluates (h : Evaluates f.test m (.ok v m₁)) :
    f.Decides m (.ok v.isTruthy m₁) := by
  cases hcondition : f.condition with
  | some e =>
    unfold test at h
    rw [hcondition] at h
    exact .value hcondition h
  | none =>
    unfold test at h
    rw [hcondition] at h
    have hliteral := h.unique (evaluates_literal (.bool true) m) (grows_evaluate _)
    cases hliteral
    exact .absent hcondition

theorem decides_of_evaluates_error (h : Evaluates f.test m (.error stop m₁)) :
    f.Decides m (.error stop m₁) := by
  cases hcondition : f.condition with
  | some e =>
    unfold test at h
    rw [hcondition] at h
    exact .stops hcondition h
  | none =>
    unfold test at h
    rw [hcondition] at h
    have hliteral := h.unique (evaluates_literal (.bool true) m) (grows_evaluate _)
    cases hliteral

theorem Decides.exists_evaluates {again : Bool} (h : f.Decides m (.ok again m₁)) :
    ∃ v : Value, v.isTruthy = again ∧ Evaluates f.test m (.ok v m₁) := by
  unfold test
  cases h with
  | absent h =>
    rw [h]
    exact ⟨.bool true, rfl, evaluates_literal (.bool true) m⟩
  | @value e v m₁ h he =>
    rw [h]
    exact ⟨v, rfl, he⟩

theorem Decides.evaluates_error (h : f.Decides m (.error stop m₁)) :
    Evaluates f.test m (.error stop m₁) := by
  unfold test
  cases h with
  | stops h he =>
    rw [h]
    exact he

theorem opened_of_none (h : f.increment = none) (m : Machine) : f.opened m = m := by
  unfold opened
  rw [h]
  rfl

theorem opened_of_some {e : Expr} (h : f.increment = some e) (m : Machine) :
    f.opened m = m.entered := by
  unfold opened
  rw [h]
  rfl

/-- Without an increment, the body is all there is of a round. -/
theorem executes_body_iff {r : RunResult Completion} (h : f.increment = none) :
    Executes f.body m r ↔ f.Round m r := by
  have hopened := opened_of_none h m
  -- A round puts back a frame that the body itself leaves as the current one.
  constructor
  · intro hbody
    have hbody' := hbody
    rw [← hopened] at hbody'
    cases r with
    | error stop m₁ =>
      have hround := Round.stops hbody'
      rwa [Machine.backIn_eq_self hbody.onward_error.current] at hround
    | ok completion m₁ =>
      have hcurrent := hbody.onward.current
      by_cases hnormal : completion = .normal
      · subst hnormal
        have hround := Round.completes hbody' (.absent h)
        rwa [Machine.backIn_eq_self hcurrent] at hround
      · have hround := Round.leaves hbody' hnormal
        rwa [Machine.backIn_eq_self hcurrent] at hround
  · intro hround
    cases hround with
    | completes body advance =>
      rw [hopened] at body
      cases advance with
      | absent => rwa [Machine.backIn_eq_self body.onward.current]
      | value he => exact absurd (h.symm.trans he) (by simp)
    | advanceStops body advance =>
      cases advance with
      | stops he => exact absurd (h.symm.trans he) (by simp)
    | leaves body abrupt =>
      rw [hopened] at body
      rwa [Machine.backIn_eq_self body.onward.current]
    | stops body =>
      rw [hopened] at body
      rwa [Machine.backIn_eq_self body.onward_error.current]

/-- With an increment, it comes behind the body in the scope of the round. -/
theorem inTurn_iff {e : Expr} {r : RunResult Completion} (h : f.increment = some e) :
    InTurn f.body (.expression e) m r ↔ f.Round m r := by
  have hopened := opened_of_some h m
  constructor
  · intro hpair
    cases hpair with
    | both first second =>
      rw [← hopened] at first
      cases executes_expression_iff.mp second with
      | value he => exact .completes first (.value h he)
      | stops he => exact .advanceStops first (.stops h he)
    | leaves first abrupt =>
      rw [← hopened] at first
      exact .leaves first abrupt
    | stops first =>
      rw [← hopened] at first
      exact .stops first
  · intro hround
    cases hround with
    | completes body advance =>
      rw [hopened] at body
      cases advance with
      | absent hnone => exact absurd (h.symm.trans hnone) (by simp)
      | value hsome he =>
        cases h.symm.trans hsome
        exact .both body (executes_expression_iff.mpr (.value he))
    | advanceStops body advance =>
      rw [hopened] at body
      cases advance with
      | stops hsome he =>
        cases h.symm.trans hsome
        exact .both body (executes_expression_iff.mpr (.stops he))
    | leaves body abrupt =>
      rw [hopened] at body
      exact .leaves body abrupt
    | stops body =>
      rw [hopened] at body
      exact .stops body

/-- The statement of a round does what a round does. -/
theorem executes_round_iff {r : RunResult Completion} : Executes f.round m r ↔ f.Round m r := by
  unfold round Grammar.loopRound
  cases h : f.increment with
  | none => exact executes_body_iff h
  | some e => exact executes_pair_iff.trans (inTurn_iff h)

/-! ## All rounds -/

/-- The rounds that a run with some budget has made. -/
theorem rounds_of_result {budget : Nat} {r : RunResult Completion}
    (h : (⟨f.test, f.round, budget, m⟩ : Loop).result = r) (finished : Finished r)
    (here : m.current = scope) : f.Rounds scope m r := by
  -- One unit of the budget is spent for each round.
  induction budget generalizing m with
  | zero => exact absurd h.symm (finished m)
  | succ budget ih =>
    cases htest : evaluate budget f.test m with
    | error stop m₁ =>
      rw [Loop.result_undecided htest] at h
      subst h
      exact .undecided here (decides_of_evaluates_error (comes_of_run htest (finished.error m₁)))
    | ok v m₁ =>
      have hvalue : Evaluates f.test m (.ok v m₁) := comes_of_run htest (finished_ok v m₁)
      have hdecides := decides_of_evaluates hvalue
      cases htruthy : v.isTruthy with
      | false =>
        rw [htruthy] at hdecides
        rw [Loop.result_ends htest htruthy] at h
        subst h
        exact .ends here hdecides
      | true =>
        rw [htruthy] at hdecides
        cases hround : execute budget f.round m₁ with
        | error stop m₂ =>
          rw [Loop.result_stopped htest htruthy hround] at h
          subst h
          have hrun : Executes f.round m₁ (.error stop m₂) :=
            comes_of_run hround (finished.error m₂)
          exact .stops here hdecides (executes_round_iff.mp hrun)
        | ok completion m₂ =>
          have hrun : Executes f.round m₁ (.ok completion m₂) :=
            comes_of_run hround (finished_ok completion m₂)
          have hdone := executes_round_iff.mp hrun
          cases completion with
          | normal =>
            rw [Loop.result_normal htest htruthy hround] at h
            have hcurrent : m₂.current = m.current :=
              hrun.onward.current.trans hvalue.onward.current
            exact .next here hdecides hdone (ih h (hcurrent.trans here))
          | broke =>
            rw [Loop.result_broke htest htruthy hround] at h
            subst h
            exact .breaks here hdecides hdone
          | returned w =>
            rw [Loop.result_returned htest htruthy hround] at h
            subst h
            exact .returns here hdecides hdone

/-- What holds of all great budgets may be shown of their successors. -/
theorem eventually_of_succ {p : Nat → Prop} (enough : Nat)
    (h : ∀ budget, enough ≤ budget → p (budget + 1)) :
    ∃ enough, ∀ budget, enough ≤ budget → p budget := by
  refine ⟨enough + 1, fun budget hle => ?_⟩
  cases budget with
  | zero => omega
  | succ budget => exact h budget (by omega)

/-- A round with the condition before it, which holds, is made with great budgets. -/
theorem Round.eventually {r : RunResult Completion} (h : f.Round m₁ r)
    (condition : f.Decides m (.ok true m₁)) :
    ∃ v : Value, v.isTruthy = true ∧ ∃ enough, ∀ budget, enough ≤ budget →
      evaluate budget f.test m = .ok v m₁ ∧ execute budget f.round m₁ = r := by
  obtain ⟨v, htruthy, hv⟩ := condition.exists_evaluates
  obtain ⟨enough, htest⟩ := hv.eventually (grows_evaluate _)
  obtain ⟨enough', hround⟩ := (executes_round_iff.mpr h).eventually (grows_execute _)
  refine ⟨v, htruthy, max enough enough', fun budget hle => ?_⟩
  exact ⟨htest budget (by omega), hround budget (by omega)⟩

/-- Rounds are made with any budget that is great enough. -/
theorem Rounds.eventually {r : RunResult Completion} (h : f.Rounds scope m r) :
    Finished r ∧ ∃ enough, ∀ budget, enough ≤ budget →
      (⟨f.test, f.round, budget, m⟩ : Loop).result = r := by
  induction h with
  | ends here condition =>
    obtain ⟨v, hfalsy, hv⟩ := condition.exists_evaluates
    obtain ⟨enough, htest⟩ := hv.eventually (grows_evaluate _)
    refine ⟨finished_ok _ _, eventually_of_succ enough fun budget hle => ?_⟩
    exact Loop.result_ends (htest budget hle) hfalsy
  | undecided here condition =>
    have hv := condition.evaluates_error
    obtain ⟨enough, htest⟩ := hv.eventually (grows_evaluate _)
    refine ⟨hv.2.error _, eventually_of_succ enough fun budget hle => ?_⟩
    exact Loop.result_undecided (htest budget hle)
  | next here condition round rest ih =>
    obtain ⟨finished, enough', hrest⟩ := ih
    obtain ⟨v, htruthy, enough, hrun⟩ := round.eventually condition
    -- The greater of the two budgets does for this round and for the rest.
    have hsucc : ∀ budget, max enough enough' ≤ budget → _ := fun budget hle => by
      obtain ⟨htest, hround⟩ := hrun budget (by omega)
      exact (Loop.result_normal htest htruthy hround).trans (hrest budget (by omega))
    exact ⟨finished, eventually_of_succ _ hsucc⟩
  | breaks here condition round =>
    obtain ⟨v, htruthy, enough, hrun⟩ := round.eventually condition
    refine ⟨finished_ok _ _, eventually_of_succ enough fun budget hle => ?_⟩
    obtain ⟨htest, hround⟩ := hrun budget hle
    exact Loop.result_broke htest htruthy hround
  | returns here condition round =>
    obtain ⟨v, htruthy, enough, hrun⟩ := round.eventually condition
    refine ⟨finished_ok _ _, eventually_of_succ enough fun budget hle => ?_⟩
    obtain ⟨htest, hround⟩ := hrun budget hle
    exact Loop.result_returned htest htruthy hround
  | stops here condition round =>
    obtain ⟨v, htruthy, enough, hrun⟩ := round.eventually condition
    have finished := (executes_round_iff.mpr round).2
    refine ⟨finished.error _, eventually_of_succ enough fun budget hle => ?_⟩
    obtain ⟨htest, hround⟩ := hrun budget hle
    exact Loop.result_stopped htest htruthy hround

/-- The statement of all rounds. -/
theorem executes_loop_iff {r : RunResult Completion} :
    Executes (.whileDo f.test f.round) m r ↔ f.Rounds m.current m r := by
  constructor
  · intro h
    obtain ⟨finished, budget, hrun⟩ := h.exists_succ
    exact rounds_of_result hrun finished rfl
  · intro h
    obtain ⟨finished, enough, hrun⟩ := h.eventually
    exact ⟨⟨enough + 1, hrun enough (Nat.le_refl _)⟩, finished⟩

/-- A declaration of a variable or an expression never leaves its scope abruptly. -/
theorem Formed.initial_normal {s : Stmt} (formed : f.Formed) (h : f.initial = some s)
    (hs : Executes s m (.ok completion m₁)) : completion = .normal := by
  obtain ⟨⟨budget, hrun⟩, -⟩ := hs
  have hfrom := ((completesAt budget).execute s m).of_ok hrun
  -- Only a `break` or a `return` in it could leave the clause otherwise.
  cases completion with
  | normal => rfl
  | broke =>
    rcases formed.initial s h with ⟨name, value, rfl⟩ | ⟨e, rfl⟩
    · cases hfrom
    · cases hfrom
  | returned v =>
    rcases formed.initial s h with ⟨name, value, rfl⟩ | ⟨e, rfl⟩
    · cases hfrom
    · cases hfrom

/-- A loop and the statement that it is read as do the same. -/
theorem executes_tree_iff {r : RunResult Completion} (formed : f.Formed) :
    Executes f.tree m r ↔ f.Runs m r := by
  cases hinitial : f.initial with
  | none =>
    have htree : f.tree = .whileDo f.test f.round := by
      unfold tree Grammar.forLoop
      rw [hinitial]
      rfl
    rw [htree, executes_loop_iff]
    constructor
    · exact .bare hinitial
    · intro h
      cases h with
      | bare _ rounds => exact rounds
      | framed h => exact absurd (hinitial.symm.trans h) (by simp)
      | initialStops h => exact absurd (hinitial.symm.trans h) (by simp)
  | some s =>
    have htree : f.tree = .block [s, .whileDo f.test f.round] := by
      unfold tree Grammar.forLoop
      rw [hinitial]
      rfl
    rw [htree, executes_pair_iff]
    constructor
    · intro h
      cases h with
      | both first second =>
        have rounds := executes_loop_iff.mp second
        rw [first.onward.current] at rounds
        exact .framed hinitial first rounds
      | leaves first abrupt => exact absurd (formed.initial_normal hinitial first) abrupt
      | stops first => exact .initialStops hinitial first
    · intro h
      cases h with
      | bare h => exact absurd (hinitial.symm.trans h) (by simp)
      | framed h first rounds =>
        cases hinitial.symm.trans h
        -- The frame of the loop is the one that is allocated when its scope is entered.
        have hcurrent : some m.frames.next = _ := first.onward.current.symm
        rw [hcurrent] at rounds
        exact .both first (executes_loop_iff.mpr rounds)
      | initialStops h first =>
        cases hinitial.symm.trans h
        exact .stops first

/-! ## What holds of a loop -/

/-- A loop is never left by a `break`. -/
theorem Rounds.ne_broke (h : f.Rounds scope m (.ok completion m₁)) : completion ≠ .broke := by
  generalize hr : (.ok completion m₁ : RunResult Completion) = r at h
  induction h with
  | next here condition round rest ih => exact ih hr
  | ends => cases hr; simp
  | breaks => cases hr; simp
  | returns => cases hr; simp
  | undecided => cases hr
  | stops => cases hr

theorem Runs.ne_broke (h : f.Runs m (.ok completion m')) : completion ≠ .broke := by
  generalize hr : (.ok completion m' : RunResult Completion) = r at h
  cases h with
  | bare _ rounds =>
    subst hr
    exact rounds.ne_broke
  | @framed s m₁ r _ _ rounds =>
    cases r with
    | ok completion' m₂ =>
      cases hr
      exact rounds.ne_broke
    | error stop m₂ => cases hr
  | initialStops => cases hr

end ForLoop

end LoxLang
