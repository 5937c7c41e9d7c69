import LoxLang.Evaluation.Step
import LoxLang.Proofs.Ensures
import LoxLang.Proofs.Tree.Formed

/-!
# How control leaves statements

A `break` or `return` is carried outward by the completions of the statements around it. The
executions that lie within an execution are those of the statements of its text, down to the next
calls (`Execution.Encloses`). An abrupt completion of one of them passes through the blocks and
conditionals around it, and that of a `return` also through loops (`Encloses.passes`); that of a
`break` ends the loop around it, which then completes normally (`Encloses.loop_or_unlooped`,
`Round.ends`). A statement completes so only if a part of its text says so
(`exists_breaks`, `exists_returns`).
-/

namespace LoxLang

open Evaluation

/-! ## Executions -/

/-- Statements that are executed in order, with a budget and from a machine. -/
structure Execution where
  budget : Nat
  body : List Stmt
  machine : Machine

/-- What an execution comes to. -/
def Execution.result (x : Execution) : EStateM.Result Stop Machine Completion :=
  inOrder (execute x.budget) x.body x.machine

/-- A machine with a new frame as the current one, which lies in the one before. -/
def Machine.entered (m : Machine) : Machine :=
  { m with frames := m.frames.alloc m.current, current := some m.frames.next }

section

variable {budget : Nat} {s : Stmt} {rest body : List Stmt} {m m' : Machine}
  {completion : Completion}

theorem result_next (h : execute budget s m = .ok .normal m') :
    (⟨budget, s :: rest, m⟩ : Execution).result = (⟨budget, rest, m'⟩ : Execution).result := by
  unfold Execution.result inOrder
  simp only [bind, EStateM.bind, h]
  cases rest <;> rfl

theorem result_abrupt (h : execute budget s m = .ok completion m') (abrupt : completion ≠ .normal) :
    (⟨budget, s :: rest, m⟩ : Execution).result = .ok completion m' := by
  unfold Execution.result inOrder
  simp only [bind, EStateM.bind, h]
  cases completion with
  | normal => exact absurd rfl abrupt
  | broke => rfl
  | returned v => rfl

theorem result_stops {stop : Stop} (h : execute budget s m = .error stop m') :
    (⟨budget, s :: rest, m⟩ : Execution).result = .error stop m' := by
  unfold Execution.result inOrder
  simp only [bind, EStateM.bind, h]

/-- Where statements complete abruptly, one of them does. -/
theorem exists_abrupt (abrupt : completion ≠ .normal) {x : Execution}
    (h : x.result = .ok completion m') :
    ∃ s ∈ x.body, ∃ m, execute x.budget s m = .ok completion m' := by
  obtain ⟨budget, body, m⟩ := x
  induction body generalizing m with
  | nil =>
    cases h
    exact absurd rfl abrupt
  | cons s rest ih =>
    cases hs : execute budget s m with
    | error stop m₁ =>
      rw [result_stops hs] at h
      cases h
    | ok first m₁ =>
      by_cases hnormal : first = .normal
      · subst hnormal
        rw [result_next hs] at h
        obtain ⟨s', hs', m₂, hrun⟩ := ih m₁ h
        exact ⟨s', List.mem_cons_of_mem s hs', m₂, hrun⟩
      · rw [result_abrupt hs hnormal] at h
        exact ⟨s, List.mem_cons_self, m, hs.trans h⟩

theorem execute_block :
    execute (budget + 1) (.block body) m =
      Run.putBack m.current (⟨budget, body, m.entered⟩ : Execution).result := by
  unfold execute
  rfl

theorem execute_then {condition : Expr} {other : Option Stmt} {v : Value}
    (h : evaluate budget condition m = .ok v m') (truthy : v.isTruthy = true) :
    execute (budget + 1) (.ifThen condition s other) m = execute budget s m' := by
  simp only [execute, bind, EStateM.bind, h, truthy, if_true]

theorem execute_else {condition : Expr} {first : Stmt} {v : Value}
    (h : evaluate budget condition m = .ok v m') (falsy : v.isTruthy = false) :
    execute (budget + 1) (.ifThen condition first (some s)) m = execute budget s m' := by
  simp only [execute, bind, EStateM.bind, h, falsy, Bool.false_eq_true, if_false]

theorem result_single : (⟨budget, [s], m⟩ : Execution).result = execute budget s m := by
  cases h : execute budget s m with
  | error stop m₁ => exact result_stops h
  | ok first m₁ =>
    by_cases hnormal : first = .normal
    · subst hnormal
      exact result_next h
    · exact result_abrupt h hnormal

end

/-! ## Loops -/

/-- A loop that is executed, with the budget of its rounds and from a machine. -/
structure Loop where
  condition : Expr
  body : Stmt
  budget : Nat
  machine : Machine

namespace Loop

/-- What the loop comes to as a statement. -/
def result (l : Loop) : EStateM.Result Stop Machine Completion :=
  execute (l.budget + 1) (.whileDo l.condition l.body) l.machine

/-- The loop and the statements behind it. -/
def before (l : Loop) (rest : List Stmt) : Execution :=
  ⟨l.budget + 1, .whileDo l.condition l.body :: rest, l.machine⟩

/-- The executions of the body of a loop. -/
inductive Round : Loop → Execution → Prop
  | first {condition : Expr} {body : Stmt} {budget : Nat} {m m' : Machine} {v : Value}
      (h : evaluate budget condition m = .ok v m') (truthy : v.isTruthy = true) :
      Round ⟨condition, body, budget + 1, m⟩ ⟨budget, [body], m'⟩
  | later {condition : Expr} {body : Stmt} {budget : Nat} {m m₁ m₂ : Machine} {v : Value}
      {x : Execution} (h : evaluate budget condition m = .ok v m₁) (truthy : v.isTruthy = true)
      (hbody : execute budget body m₁ = .ok .normal m₂)
      (hround : Round ⟨condition, body, budget, m₂⟩ x) :
      Round ⟨condition, body, budget + 1, m⟩ x

theorem result_eq (l : Loop) : l.result = repeatWhile l.budget l.condition l.body l.machine := by
  unfold result execute
  rfl

section

variable {condition : Expr} {body : Stmt} {budget : Nat} {m m₁ m₂ : Machine} {v : Value}

theorem result_normal (h : evaluate budget condition m = .ok v m₁) (truthy : v.isTruthy = true)
    (hbody : execute budget body m₁ = .ok .normal m₂) :
    (⟨condition, body, budget + 1, m⟩ : Loop).result =
      (⟨condition, body, budget, m₂⟩ : Loop).result := by
  rw [result_eq, result_eq]
  simp only [repeatWhile, bind, EStateM.bind, h, truthy, if_true, hbody]

theorem result_broke (h : evaluate budget condition m = .ok v m₁) (truthy : v.isTruthy = true)
    (hbody : execute budget body m₁ = .ok .broke m₂) :
    (⟨condition, body, budget + 1, m⟩ : Loop).result = .ok .normal m₂ := by
  rw [result_eq]
  simp only [repeatWhile, bind, EStateM.bind, h, truthy, if_true, hbody]
  rfl

theorem result_undecided {stop : Stop} (h : evaluate budget condition m = .error stop m₁) :
    (⟨condition, body, budget + 1, m⟩ : Loop).result = .error stop m₁ := by
  rw [result_eq]
  simp only [repeatWhile, bind, EStateM.bind, h]

theorem result_ends (h : evaluate budget condition m = .ok v m₁) (falsy : v.isTruthy = false) :
    (⟨condition, body, budget + 1, m⟩ : Loop).result = .ok .normal m₁ := by
  rw [result_eq]
  simp only [repeatWhile, bind, EStateM.bind, h, falsy, Bool.false_eq_true, if_false]
  rfl

theorem result_stopped {stop : Stop} (h : evaluate budget condition m = .ok v m₁)
    (truthy : v.isTruthy = true) (hbody : execute budget body m₁ = .error stop m₂) :
    (⟨condition, body, budget + 1, m⟩ : Loop).result = .error stop m₂ := by
  rw [result_eq]
  simp only [repeatWhile, bind, EStateM.bind, h, truthy, if_true, hbody]

theorem result_returned {w : Value} (h : evaluate budget condition m = .ok v m₁)
    (truthy : v.isTruthy = true) (hbody : execute budget body m₁ = .ok (.returned w) m₂) :
    (⟨condition, body, budget + 1, m⟩ : Loop).result = .ok (.returned w) m₂ := by
  rw [result_eq]
  simp only [repeatWhile, bind, EStateM.bind, h, truthy, if_true, hbody]
  rfl

end

variable {l : Loop} {x : Execution} {m : Machine}

/-- A `break` in a round ends the loop, which completes normally. -/
theorem Round.ends (h : l.Round x) (hx : x.result = .ok .broke m) : l.result = .ok .normal m := by
  induction h with
  | first h truthy =>
    rw [result_single] at hx
    exact result_broke h truthy hx
  | later h truthy hbody _ ih => exact (result_normal h truthy hbody).trans (ih hx)

/-- A `return` in a round is one from the loop. -/
theorem Round.returns {v : Value} (h : l.Round x) (hx : x.result = .ok (.returned v) m) :
    l.result = .ok (.returned v) m := by
  induction h with
  | first h truthy =>
    rw [result_single] at hx
    exact result_returned h truthy hx
  | later h truthy hbody _ ih => exact (result_normal h truthy hbody).trans (ih hx)

end Loop

/-! ## What the text says -/

/-- A completion is normal, or a part of the statement is written for it. -/
def Completion.From (s : Stmt) : Completion → Prop
  | .normal => True
  | .broke => s.Breaks
  | .returned _ => s.Returns

/-- Of a loop that is executed, only a `return` in its body is left. -/
def Completion.FromLoop (body : Stmt) : Completion → Prop
  | .normal => True
  | .broke => False
  | .returned _ => body.Returns

/-- With a budget, statements and loops complete as their text says. -/
structure CompletesAt (budget : Nat) : Prop where
  execute : ∀ (s : Stmt) (m : Machine),
    Ensures (execute budget s) m (fun completion _ => completion.From s) fun _ _ => True
  repeatWhile : ∀ (condition : Expr) (body : Stmt) (m : Machine),
    Ensures (repeatWhile budget condition body) m (fun completion _ => completion.FromLoop body)
      fun _ _ => True

theorem CompletesAt.block {budget : Nat} (h : CompletesAt budget) (body : List Stmt) (m : Machine) :
    Ensures (LoxLang.execute (budget + 1) (.block body)) m
      (fun completion _ => completion.From (.block body)) fun _ _ => True := by
  unfold Ensures
  rw [execute_block]
  cases hresult : (⟨budget, body, m.entered⟩ : Execution).result with
  | error stop m' => trivial
  | ok completion m' =>
    cases completion with
    | normal => trivial
    | broke =>
      obtain ⟨s, hs, m₁, hrun⟩ := exists_abrupt (by simp) hresult
      exact .block hs ((h.execute s m₁).of_ok hrun)
    | returned v =>
      obtain ⟨s, hs, m₁, hrun⟩ := exists_abrupt (by simp) hresult
      exact .block hs ((h.execute s m₁).of_ok hrun)

theorem CompletesAt.execute_succ {budget : Nat} (h : CompletesAt budget) (s : Stmt) (m : Machine) :
    Ensures (LoxLang.execute (budget + 1) s) m (fun completion _ => completion.From s)
      fun _ _ => True := by
  cases s with
  | block body => exact h.block body m
  | ifThen condition first other =>
    unfold LoxLang.execute
    refine ensures_last (fun v m₁ => ?_) m
    split
    · refine (h.execute first m₁).mono ?_ fun _ _ h => h
      intro completion _ hfrom
      cases completion with
      | normal => trivial
      | broke => exact .thenBranch hfrom
      | returned v => exact .thenBranch hfrom
    · cases other with
      | none => trivial
      | some second =>
        refine (h.execute second m₁).mono ?_ fun _ _ h => h
        intro completion _ hfrom
        cases completion with
        | normal => trivial
        | broke => exact .elseBranch hfrom
        | returned v => exact .elseBranch hfrom
  | whileDo condition body =>
    unfold LoxLang.execute
    refine (h.repeatWhile condition body m).mono ?_ fun _ _ h => h
    intro completion _ hfrom
    cases completion with
    | normal => trivial
    -- A loop consumes the `break` that its body is left by.
    | broke => exact hfrom.elim
    | returned v => exact .loop hfrom
  | breakLoop line => exact Stmt.Breaks.here
  | returnWith line value =>
    unfold LoxLang.execute
    cases value with
    | none => exact Stmt.Returns.here
    | some e =>
      refine ensures_last (fun v m₁ => ?_) m
      exact Stmt.Returns.here
  | varDecl name initial =>
    unfold LoxLang.execute
    cases initial with
    | none =>
      refine ensures_last (fun v => ensures_last fun _ m₁ => ?_) m
      trivial
    | some e =>
      refine ensures_last (fun v => ensures_last fun _ m₁ => ?_) m
      trivial
  | expression value =>
    unfold LoxLang.execute
    refine ensures_last (fun _ m₁ => ?_) m
    trivial
  | print value =>
    unfold LoxLang.execute
    refine ensures_last (fun v => ensures_last fun _ m₁ => ?_) m
    trivial
  | funDecl declared =>
    unfold LoxLang.execute
    refine ensures_last (fun frame => ensures_last fun v => ensures_last fun _ m₁ => ?_) m
    trivial
  | classDecl name superclass traits methods classMethods =>
    unfold LoxLang.execute
    refine ensures_last (fun _ m₁ => ?_) m
    trivial
  | traitDecl name traits methods =>
    unfold LoxLang.execute
    refine ensures_last (fun _ m₁ => ?_) m
    trivial

theorem CompletesAt.repeatWhile_succ {budget : Nat} (h : CompletesAt budget) (condition : Expr)
    (body : Stmt) (m : Machine) :
    Ensures (LoxLang.repeatWhile (budget + 1) condition body) m
      (fun completion _ => completion.FromLoop body) fun _ _ => True := by
  unfold LoxLang.repeatWhile
  refine ensures_last (fun v m₁ => ?_) m
  split
  · refine (h.execute body m₁).bind fun completion m₂ hfrom => ?_
    cases completion with
    | normal => exact h.repeatWhile condition body m₂
    | broke => trivial
    | returned v => exact hfrom
  · trivial

/-- Whatever the budget, statements complete as their text says. -/
theorem completesAt (budget : Nat) : CompletesAt budget := by
  induction budget with
  | zero => exact ⟨fun _ _ => trivial, fun _ _ _ => trivial⟩
  | succ budget ih => exact ⟨ih.execute_succ, ih.repeatWhile_succ⟩

/-- Where statements are left by a `break`, it is written in one of them, outside of loops. -/
theorem exists_breaks {x : Execution} {m : Machine} (h : x.result = .ok .broke m) :
    ∃ s ∈ x.body, s.Breaks := by
  obtain ⟨s, hs, m₁, hrun⟩ := exists_abrupt (by simp) h
  exact ⟨s, hs, ((completesAt x.budget).execute s m₁).of_ok hrun⟩

/-- Where statements are left by a `return`, it is written in one of them. -/
theorem exists_returns {x : Execution} {v : Value} {m : Machine}
    (h : x.result = .ok (.returned v) m) : ∃ s ∈ x.body, s.Returns := by
  obtain ⟨s, hs, m₁, hrun⟩ := exists_abrupt (by simp) h
  exact ⟨s, hs, ((completesAt x.budget).execute s m₁).of_ok hrun⟩

/-- No loop is left by a `break`: it ends where the `break` is. -/
theorem Loop.result_ne_broke (l : Loop) (m : Machine) : l.result ≠ .ok .broke m := by
  intro h
  cases ((completesAt (l.budget + 1)).execute (.whileDo l.condition l.body) l.machine).of_ok h

/-! ## Executions within an execution -/

/-- The executions of parts of the text of an execution, down to the next calls: that of the
statements behind one that completes normally, of the body of a block, of the branch that is taken
and, if `loops` is set, of the rounds of loops. -/
inductive Execution.Encloses (loops : Bool) : Execution → Execution → Prop
  | self {x : Execution} : Encloses loops x x
  | next {budget : Nat} {s : Stmt} {rest : List Stmt} {m m' : Machine} {x : Execution}
      (h : execute budget s m = .ok .normal m') (hx : Encloses loops ⟨budget, rest, m'⟩ x) :
      Encloses loops ⟨budget, s :: rest, m⟩ x
  | block {budget : Nat} {body rest : List Stmt} {m : Machine} {x : Execution}
      (hx : Encloses loops ⟨budget, body, m.entered⟩ x) :
      Encloses loops ⟨budget + 1, .block body :: rest, m⟩ x
  | thenBranch {budget : Nat} {condition : Expr} {s : Stmt} {other : Option Stmt}
      {rest : List Stmt} {m m' : Machine} {v : Value} {x : Execution}
      (h : evaluate budget condition m = .ok v m') (truthy : v.isTruthy = true)
      (hx : Encloses loops ⟨budget, [s], m'⟩ x) :
      Encloses loops ⟨budget + 1, .ifThen condition s other :: rest, m⟩ x
  | elseBranch {budget : Nat} {condition : Expr} {first s : Stmt} {rest : List Stmt}
      {m m' : Machine} {v : Value} {x : Execution} (h : evaluate budget condition m = .ok v m')
      (falsy : v.isTruthy = false) (hx : Encloses loops ⟨budget, [s], m'⟩ x) :
      Encloses loops ⟨budget + 1, .ifThen condition first (some s) :: rest, m⟩ x
  | round {l : Loop} {rest : List Stmt} {round x : Execution} (hloops : loops = true)
      (hround : l.Round round) (hx : Encloses loops round x) : Encloses loops (l.before rest) x

namespace Execution

variable {whole part : Execution} {loops : Bool} {completion : Completion} {m : Machine}

/-- An abrupt completion of a part is one of the whole, unless it is a `break` and a loop may lie
between. Nothing happens on the way but that the frames before are made the current ones again. -/
theorem Encloses.passes (h : whole.Encloses loops part) (hpart : part.result = .ok completion m)
    (abrupt : completion ≠ .normal) (through : loops = true → completion ≠ .broke) :
    ∃ frame, whole.result = .ok completion { m with current := frame } := by
  -- What leaves a statement abruptly leaves all that enclose it, up to a loop that it breaks or a
  -- call.
  induction h with
  | self => exact ⟨m.current, hpart⟩
  | next hs _ ih =>
    obtain ⟨frame, h⟩ := ih hpart
    exact ⟨frame, (result_next hs).trans h⟩
  | @block _ _ _ outer _ _ ih =>
    obtain ⟨frame, h⟩ := ih hpart
    refine ⟨outer.current, result_abrupt ?_ abrupt⟩
    rw [execute_block, h]
    rfl
  | thenBranch he truthy _ ih =>
    obtain ⟨frame, h⟩ := ih hpart
    rw [result_single] at h
    exact ⟨frame, result_abrupt ((execute_then he truthy).trans h) abrupt⟩
  | elseBranch he falsy _ ih =>
    obtain ⟨frame, h⟩ := ih hpart
    rw [result_single] at h
    exact ⟨frame, result_abrupt ((execute_else he falsy).trans h) abrupt⟩
  | round hloops hround _ ih =>
    obtain ⟨frame, h⟩ := ih hpart
    cases completion with
    | normal => exact absurd rfl abrupt
    | broke => exact absurd rfl (through hloops)
    | returned v => exact ⟨frame, result_abrupt (hround.returns h) abrupt⟩

/-- A loop in an execution, and a round of it in which a part lies outside of further loops. -/
def NearestLoop (whole part : Execution) (l : Loop) (rest : List Stmt) : Prop :=
  whole.Encloses true (l.before rest) ∧ ∃ round, l.Round round ∧ round.Encloses false part

/-- A part lies in a loop or outside of all of them. -/
theorem Encloses.loop_or_unlooped (h : whole.Encloses true part) :
    whole.Encloses false part ∨ ∃ l rest, whole.NearestLoop part l rest := by
  induction h with
  | self => exact .inl .self
  | next hs _ ih =>
    exact ih.imp (.next hs) fun ⟨l, rest, hl, hround⟩ => ⟨l, rest, .next hs hl, hround⟩
  | block _ ih => exact ih.imp .block fun ⟨l, rest, hl, hround⟩ => ⟨l, rest, .block hl, hround⟩
  | thenBranch he truthy _ ih =>
    exact ih.imp (.thenBranch he truthy)
      fun ⟨l, rest, hl, hround⟩ => ⟨l, rest, .thenBranch he truthy hl, hround⟩
  | elseBranch he falsy _ ih =>
    exact ih.imp (.elseBranch he falsy)
      fun ⟨l, rest, hl, hround⟩ => ⟨l, rest, .elseBranch he falsy hl, hround⟩
  | @round l rest round x _ hround _ ih =>
    rcases ih with hunlooped | ⟨l', rest', hl, hround'⟩
    · exact .inr ⟨l, rest, .self, round, hround, hunlooped⟩
    · exact .inr ⟨l', rest', .round rfl hround hl, hround'⟩

/-! ## Orderly executions -/

/-- No abrupt completion of a part is lost or goes astray: that of a `break` ends the nearest loop
around, behind which things go on, and that of a `return` is one of everything around. -/
structure Orderly (whole : Execution) : Prop where
  unbroken : ∀ m, whole.result ≠ .ok .broke m
  breaks : ∀ part m, whole.Encloses true part → part.result = .ok .broke m →
    ∃ l rest frame, whole.NearestLoop part l rest ∧
      l.result = .ok .normal { m with current := frame } ∧
      (l.before rest).result =
        (⟨l.budget + 1, rest, { m with current := frame }⟩ : Execution).result
  returns : ∀ around part v m, whole.Encloses true around → around.Encloses true part →
    part.result = .ok (.returned v) m →
      ∃ frame, around.result = .ok (.returned v) { m with current := frame }
  loops : ∀ l rest m, whole.Encloses true (Loop.before l rest) → l.result ≠ .ok .broke m

/-- Statements without a `break` for a loop around them are executed in order. -/
theorem orderly (h : ∀ s ∈ whole.body, ¬s.Breaks) : whole.Orderly where
  unbroken m hresult := by
    obtain ⟨s, hs, hbreaks⟩ := exists_breaks hresult
    exact h s hs hbreaks
  breaks part m hpart hresult := by
    rcases hpart.loop_or_unlooped with hunlooped | ⟨l, rest, hl, round, hround, hinside⟩
    · obtain ⟨frame, hwhole⟩ := hunlooped.passes hresult (by simp) (by simp)
      obtain ⟨s, hs, hbreaks⟩ := exists_breaks hwhole
      exact absurd hbreaks (h s hs)
    · obtain ⟨frame, hbroke⟩ := hinside.passes hresult (by simp) (by simp)
      have hends := hround.ends hbroke
      exact ⟨l, rest, frame, ⟨hl, round, hround, hinside⟩, hends, result_next hends⟩
  returns _ part v m _ hpart hresult := hpart.passes hresult (by simp) (by simp)
  loops l _ m _ := l.result_ne_broke m

end Execution

end LoxLang
