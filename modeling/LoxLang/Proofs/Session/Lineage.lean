import LoxLang.Proofs.Evaluation.Lineage
import LoxLang.Proofs.Session.Invariant

/-!
# What a session makes

The steps that a session has taken before an input (`Account.history`) are past for the run of it.
All frames and values of a session were made by steps that are past, or by those of the run itself
(`Watched.Made`), and what a scene holds for good is still held at all later ones.
-/

namespace LoxLang

/-! ## Histories -/

namespace Account

/-- The steps that an event takes, the latest first. -/
def stepsOf (a : Account) : Event → List Step
  | .input budget input => (a.take budget input).steps
  | .output _ => []

/-- The steps that events take, one after the other, the latest first. -/
def history (a : Account) : List Event → List Step
  | [] => []
  | event :: rest => (a.after event).history rest ++ a.stepsOf event

end Account

/-- The run of an input, and the account behind it, were made. -/
def Watched.Made {α : Type} (past : Step → Prop) (w : Watched α) : Prop :=
  Chronicle.Made past ⟨w.account.scene, w.steps⟩

namespace Account

variable {α β : Type} {past : Step → Prop} {a : Account} {program : List Stmt} {added : Bindings}

/-! ## Inputs -/

theorem made_opening (h : a.scene.Made past) (added : Bindings) :
    Chronicle.Made past ⟨a.opening added, []⟩ := by
  have retains : a.scene.Retains (a.opening added) :=
    .of_keeps (keeps_opening a added) (Nat.le_refl _)
  exact (h.chronicle.moved retains (fun v hv => .inl (stores_opening hv))
    (h.current.retains retains) fun _ r hr => .inl ⟨r, hr⟩).1

theorem made_perform {watch : Watch α} {result : α → Chronicle → Prop}
    (making : Making past watch ⟨a.opening added, []⟩ result) (next : RefId)
    (resolver : Scoping.Analysis) :
    (Account.perform ⟨⟨a.session.machine, next, resolver⟩, a.records, a.accepted⟩ added program
      watch).Made past := by
  have hopening : (⟨⟨a.session.machine, next, resolver⟩, a.records, a.accepted⟩ :
      Account).opening added = a.opening added := rfl
  unfold Account.perform
  rw [hopening]
  unfold Making Ensures at making
  cases hwatch : watch ⟨a.opening added, []⟩ with
  | ok v c =>
    rw [hwatch] at making
    exact making.1.1
  | error stop c =>
    rw [hwatch] at making
    exact making.1

theorem made_proceed (h : a.scene.Made past) {source : List UInt8} {reading : Reading α}
    {program : α → List Stmt} {watch : α → Watch β}
    (making : ∀ t added, reading.result = .ok t → Scoping.resolve (program t) = .ok added →
      Making past (watch t) ⟨a.opening added, []⟩ fun _ _ => True) :
    (Account.proceed { a with session.nextId := reading.nextId } (Session.gate source reading)
      program watch).Made past := by
  unfold Account.proceed
  cases hgate : Session.gate source reading with
  | error diagnostics => exact h.chronicle
  | ok t =>
    have hread := (Session.gate_ok hgate).1
    obtain ⟨resolver, hresolver⟩ := Session.exists_resolveWith a.session.resolver (program t)
    cases hresolved : Scoping.resolve (program t) with
    | error problems =>
      simp only [hresolver, hresolved]
      exact h.chronicle
    | ok added =>
      simp only [hresolver, hresolved]
      exact made_perform (making t added hread hresolved) reading.nextId resolver

theorem Sound.made_run (h : a.Sound) (made : a.scene.Made past) (budget : Nat)
    (source : List UInt8) : (a.run budget source).Made past := by
  obtain ⟨-, good⟩ := readProgram_good (plainToken_tokensOf source) a.session.nextId
  refine made_proceed made ?_
  intro tree added hread hresolved
  exact making_interpret budget tree (made_opening made added)
    (h.opening (good tree hread) hresolved) (good tree hread).1.1 fun x hx => .inr hx

theorem Sound.made_evaluate (h : a.Sound) (made : a.scene.Made past) (budget : Nat)
    (source : List UInt8) : (a.evaluate budget source).Made past := by
  refine made_proceed made ?_
  intro e added hread hresolved
  have good := readExpression_goodBody source a.session.nextId hread
  have making := (makingAt _ past budget).evaluate e [] _ (made_opening made added)
    (h.opening good hresolved) good.1.1.1 (known_expression a e)
  exact making.mono fun _ _ _ _ => trivial

/-- What an account takes next makes what it uses. -/
theorem Sound.made_take (h : a.Sound) (made : a.scene.Made past) (budget : Nat) (input : Input) :
    (a.take budget input).Made past := by
  unfold Account.take
  cases input.job with
  | nothing => exact made.chronicle
  | program source => exact h.made_run made budget source
  | expression source => exact h.made_evaluate made budget source

/-! ## Events -/

theorem Sound.made_after (h : a.Sound) (made : a.scene.Made past) (event : Event) :
    (a.after event).scene.Made fun step => past step ∨ step ∈ a.stepsOf event := by
  cases event with
  | input budget input => exact (h.made_take made budget input).scene
  | output sink =>
    have hcalm : a.session.machine.Calm (·.Made (Chronicle.Past past ⟨a.scene, []⟩) a.scene)
        { a.session.machine with sink := sink } := calm_same rfl rfl rfl rfl rfl rfl
    exact (made.chronicle.calm hcalm).1.scene

theorem made_start (host : Host) (sink : Sink) : (start host sink).scene.Made (· ∈ []) where
  stored v hv := made_of_bare v (bare_of_start hv)
  current := Scene.plain_none _
  frames _ _ hr := by cases hr
  retained _ hstep := by cases hstep

/-- All that an account holds behind events was made by the steps that these took. -/
theorem made_through (host : Host) (sink : Sink) (events : List Event) :
    ((start host sink).through events).scene.Made (· ∈ (start host sink).history events) := by
  have hthrough : ∀ (a : Account) (earlier : List Step), a.Sound → a.scene.Made (· ∈ earlier) →
      (a.through events).scene.Made (· ∈ a.history events ++ earlier) := by
    induction events with
    | nil => exact fun _ _ _ made => made
    | cons event rest ih =>
      intro a earlier h made
      have hafter := h.made_after made event
      have hpast : (fun step => step ∈ earlier ∨ step ∈ a.stepsOf event) =
          (· ∈ a.stepsOf event ++ earlier) := by
        funext step
        rw [List.mem_append, or_comm]
      rw [hpast] at hafter
      have hrest := ih (a.after event) (a.stepsOf event ++ earlier) (h.after event) hafter
      rwa [← List.append_assoc] at hrest
  have hmade := hthrough (start host sink) [] (sound_start host sink) (made_start host sink)
  rwa [List.append_nil] at hmade

/-- Every step that has been taken was a good one. -/
theorem good_of_history (host : Host) (sink : Sink) (events : List Event) :
    ∀ step ∈ (start host sink).history events, ∃ known, step.Good known := by
  have hhistory : ∀ a : Account, a.Sound →
      ∀ step ∈ a.history events, ∃ known, step.Good known := by
    induction events with
    | nil => exact fun _ _ _ hstep => by cases hstep
    | cons event rest ih =>
      intro a h step hstep
      rcases List.mem_append.mp hstep with hstep | hstep
      · exact ih (a.after event) (h.after event) step hstep
      · cases event with
        | input budget input => exact ⟨_, (h.take budget input).steps step hstep⟩
        | output sink => cases hstep
  exact hhistory (start host sink) (sound_start host sink)

/-- All that the run of an input after events comes to was made by the steps of these and of the
run. -/
theorem made_take_through (host : Host) (sink : Sink) (events : List Event) (budget : Nat)
    (input : Input) :
    (((start host sink).through events).take budget input).Made
      (· ∈ (start host sink).history events) :=
  (sound_through host sink events).made_take (made_through host sink events) budget input

end Account

/-- The scene of a step was made by the steps before it. -/
theorem Watched.Made.step {α : Type} {w : Watched α} {history : List Step}
    (h : w.Made (· ∈ history)) {step : Step} {earlier : List Step}
    (hsuffix : step :: earlier <:+ w.steps) : step.scene.Made (· ∈ earlier ++ history) := by
  have hpast : (fun other => other ∈ history ∨ other ∈ earlier) = (· ∈ earlier ++ history) := by
    funext other
    rw [List.mem_append, or_comm]
  exact hpast ▸ h.steps step earlier hsuffix

/-- The scene behind an input was made by all steps up to there. -/
theorem Watched.Made.behind {α : Type} {w : Watched α} {history : List Step}
    (h : w.Made (· ∈ history)) : w.account.scene.Made (· ∈ w.steps ++ history) := by
  have hpast : Chronicle.Past (· ∈ history) ⟨w.account.scene, w.steps⟩ =
      (· ∈ w.steps ++ history) := by
    funext other
    rw [List.mem_append, or_comm]
    rfl
  exact hpast ▸ h.scene

end LoxLang
