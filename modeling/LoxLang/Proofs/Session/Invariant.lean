import LoxLang.Proofs.Session.Account
import LoxLang.Proofs.Session.Gating

/-!
# Sound accounts

What holds of an account between two inputs (`Account.Sound`): the scene is sound for the sites
of all trees accepted so far, and lies outside all scopes; their occurrences are numbered below
the next free reference, and only these are bound; and no statement of these trees is meant for
a loop or a function around it. Whatever the session is given, all steps of the run are good and
the account behind it is sound again (`Account.Sound.take`).
-/

namespace LoxLang

/-- An account between two inputs. -/
structure Account.Sound (a : Account) : Prop where
  scene : a.scene.Sound a.Known
  settled : a.session.machine.current = none
  bound : a.session.machine.bindings.Below a.session.nextId
  numbered : ∀ x, a.Known x → ∀ ref, x.moment.reference? = some ref →
    ref.id < a.session.nextId
  contained : ∀ program ∈ a.accepted, ∀ s ∈ program, ¬s.Breaks ∧ ¬s.Returns

/-- A failure that is told of. -/
def Tells {α : Type} (result : Except (List Diagnostic) α) (line : Nat) (cause : FailureCause) :
    Prop :=
  ∃ diagnostics, result = .error diagnostics ∧ .stopped (.failed line cause) ∈ diagnostics

namespace Watched

variable {α β : Type}

/-- How an input ends: every variable that was looked up was there and what failed, if anything,
did for an ordinary cause, or the last step looks up one that is missing, and that is told. -/
inductive Ending (w : Watched α) : Prop
  | elsewhere (found : ∀ step ∈ w.steps, ∀ slot, ¬step.Missing slot)
      (cause : ∀ line cause, Tells w.result line cause → cause.ordinary = true)
  | missing {step : Step} {earlier : List Step} {line slot : Nat}
      (steps : w.steps = step :: earlier)
      (found : ∀ step ∈ earlier, ∀ slot, ¬step.Missing slot) (missing : step.Missing slot)
      (result : w.result = .error [.stopped (.failed line (.frame (.unbound slot)))])

/-- An input that was taken by a sound account. -/
structure Sound (w : Watched α) : Prop where
  account : w.account.Sound
  steps : ∀ step ∈ w.steps, step.Good w.account.Known
  ending : w.Ending

theorem Sound.map {w : Watched α} (h : w.Sound) (f : α → β) : (w.map f).Sound where
  account := h.account
  steps := h.steps
  ending := by
    cases h.ending with
    | elsewhere found cause =>
      refine .elsewhere found ?_
      rintro line found ⟨diagnostics, hresult, hmem⟩
      unfold Watched.map at hresult
      cases hw : w.result with
      | ok a =>
        rw [hw] at hresult
        cases hresult
      | error others =>
        rw [hw] at hresult
        cases hresult
        exact cause line found ⟨diagnostics, hw, hmem⟩
    | @missing step earlier line slot steps found missing result =>
      have hmapped : (w.map f).result =
          .error [.stopped (.failed line (.frame (.unbound slot)))] := by
        unfold Watched.map
        rw [result]
        rfl
      exact .missing steps found missing hmapped

/-- Nothing is run. -/
theorem sound_unrun {a : Account} (h : a.Sound) {result : Except (List Diagnostic) α}
    (cause : ∀ line cause, Tells result line cause → cause.ordinary = true) :
    Sound ⟨result, a, []⟩ where
  account := h
  steps := by simp
  ending := .elsewhere (by simp) cause

end Watched

namespace Account

variable {α β : Type} {a : Account} {next : RefId} {program : List Stmt} {added : Bindings}

/-! ## The start -/

/-- Before any source, there are no values with closures. -/
theorem bare_of_start {host : Host} {sink : Sink} {v : Value}
    (hv : (Machine.start host sink).Stores v) : v.Bare := by
  cases hv with
  | global h =>
    change Machine.initialGlobals.get? _ = some v at h
    unfold Machine.initialGlobals at h
    rw [Dictionary.get?_insert, Dictionary.get?_insert] at h
    split at h
    · cases h
      trivial
    · split at h
      · cases h
        trivial
      · cases h
  | slot h =>
    rw [Frames.values_eq_empty _ (Nat.zero_le _)] at h
    simp at h
  | field h => cases h
  | element h => simp [Machine.start] at h

theorem sound_start (host : Host) (sink : Sink) : (start host sink).Sound where
  scene :=
    { recorded :=
        { size := rfl
          values := fun _ _ hr => by cases hr
          names := fun _ _ hr => by cases hr
          outward := fun _ _ hr => by cases hr }
      agreed := by
        rintro x ⟨program, hprogram, -⟩
        cases hprogram
      stored := fun v hv => sound_of_bare v (bare_of_start hv)
      sheltered := by
        rintro x ⟨program, hprogram, -⟩
        cases hprogram
      superclasses := fun _ _ hr => by cases hr }
  settled := rfl
  bound := fun _ _ => Scoping.getElem?_none _
  numbered := by
    rintro x ⟨program, hprogram, -⟩
    cases hprogram
  contained := nofun

/-! ## Accepting a tree -/

/-- The sites of the accepted trees and of one more. -/
def KnownWith (a : Account) (program : List Stmt) (x : Site) : Prop :=
  a.Known x ∨ x ∈ sitesInBody [] program

theorem known_cons (a : Account) (program : List Stmt) (session : Session)
    (records : Array Record) :
    (⟨session, records, program :: a.accepted⟩ : Account).Known = a.KnownWith program := by
  funext x
  unfold KnownWith Known
  simp [or_comm]

theorem stores_opening {v : Value} (hv : (a.opening added).machine.Stores v) :
    a.scene.machine.Stores v := by
  cases hv with
  | global h => exact .global h
  | slot h => exact .slot h
  | field h => exact .field h
  | element h => exact .element h

theorem keeps_opening (a : Account) (added : Bindings) : a.scene.Keeps none (a.opening added) where
  records _ r hr := ⟨r, hr, rfl, List.prefix_rfl, fun _ => rfl⟩
  outer _ _ _ := rfl
  implicit _ _ hr _ := hr

/-- The run of a resolved tree starts at a sound scene outside all scopes. -/
theorem Sound.opening (h : a.Sound) (good : Grammar.GoodBody False a.session.nextId next program)
    (resolved : Scoping.resolve program = .ok added) :
    Chronicle.Ready (a.KnownWith program) [] ⟨a.opening added, []⟩ where
  sound :=
    { scene :=
        { recorded :=
            { size := h.scene.recorded.size
              values := h.scene.recorded.values
              names := h.scene.recorded.names
              outward := h.scene.recorded.outward }
          agreed := h.scene.agreed.merge h.bound h.numbered good.1.1 good.2.nodup
            (fun id hid => (good.2.inside id hid).1) resolved
          stored := fun v hv =>
            ((h.scene.stored v (stores_opening hv)).keeps (keeps_opening a added)).further
              fun _ hx => .inl hx
          sheltered := fun x hx =>
            hx.elim (h.scene.sheltered x) (Scoping.sheltered_of_resolve resolved x)
          superclasses := h.scene.superclasses }
      steps := by simp }
  here := by
    -- A run starts at the global scope, so the empty position is where it stands.
    have hcurrent : (a.opening added).machine.current = none := h.settled
    refine ⟨?_, ?_⟩
    · rw [hcurrent]
      trivial
    · rw [hcurrent]
      rintro _ ⟨⟩
  formed := .outside

/-! ## Running a tree -/

/-- The account behind the run of a tree. -/
theorem Sound.behind (h : a.Sound) (hnext : a.session.nextId ≤ next)
    (good : Grammar.GoodBody False a.session.nextId next program)
    (resolved : Scoping.resolve program = .ok added) {s : Scene}
    (sound : s.Sound (a.KnownWith program)) (stays : (a.opening added).Stays s)
    (resolver : Scoping.Analysis) :
    Account.Sound ⟨⟨s.machine, next, resolver⟩, s.records, program :: a.accepted⟩ where
  scene := by
    rw [known_cons]
    exact sound
  settled := stays.current.trans h.settled
  bound := by
    show s.machine.bindings.Below next
    rw [stays.bindings]
    exact h.bound.merge hnext good.1.1 good.2.nodup (fun id hid => (good.2.inside id hid).2)
      resolved
  numbered := by
    intro x hx ref href
    rw [known_cons] at hx
    rcases hx with hx | hx
    · exact Nat.lt_of_lt_of_le (h.numbered x hx ref href) hnext
    · exact (good.2.inside ref.id (refersWithin_body program [] x hx ref href)).2
  contained := by
    intro other hother st hst
    -- The accepted program is contained as its tree is good, and those before it were already.
    rcases List.mem_cons.mp hother with rfl | hother
    · exact ⟨good.1.2 st hst, Scoping.not_returns_of_resolve resolved st hst⟩
    · exact h.contained other hother st hst

theorem Sound.perform (h : a.Sound) (hnext : a.session.nextId ≤ next)
    (good : Grammar.GoodBody False a.session.nextId next program)
    (resolved : Scoping.resolve program = .ok added) {watch : Watch α}
    {result : α → Scene → Prop}
    (steady : Steady (a.KnownWith program) none watch ⟨a.opening added, []⟩ result)
    (resolver : Scoping.Analysis) :
    (Account.perform ⟨⟨a.session.machine, next, resolver⟩, a.records, a.accepted⟩ added program
      watch).Sound := by
  have hopening : (⟨⟨a.session.machine, next, resolver⟩, a.records, a.accepted⟩ :
      Account).opening added = a.opening added := rfl
  have hgood : ∀ {step : Step} (session : Session) (records : Array Record),
      step.Good (a.KnownWith program) →
      step.Good (⟨session, records, program :: a.accepted⟩ : Account).Known := by
    intro step session records good
    rw [known_cons]
    exact good
  unfold Account.perform
  rw [hopening]
  unfold Steady Ensures at steady
  cases hwatch : watch ⟨a.opening added, []⟩ with
  | ok v c =>
    rw [hwatch] at steady
    obtain ⟨sound, later, -⟩ := steady
    exact
      { account := h.behind hnext good resolved sound.scene later.toStays resolver
        steps := fun step hstep => hgood _ _ (sound.steps step hstep).1
        ending := .elsewhere (fun step hstep => (sound.steps step hstep).2) (by simp [Tells]) }
  | error stop c =>
    rw [hwatch] at steady
    obtain ⟨stopped, stays⟩ := steady
    cases stopped with
    | elsewhere sound cause =>
      refine
        { account := h.behind hnext good resolved sound.scene stays resolver
          steps := fun step hstep => hgood _ _ (sound.steps step hstep).1
          ending := .elsewhere (fun step hstep => (sound.steps step hstep).2) ?_ }
      rintro line found ⟨_, ⟨⟩, hmem⟩
      cases List.mem_singleton.mp hmem
      exact cause line found rfl
    -- The run has ended at a slot that was not filled yet, and its last step is the lookup.
    | @missing s step earlier line slot sound goodStep missing =>
      refine
        { account := h.behind hnext good resolved sound.scene stays resolver
          steps := ?_
          ending := .missing rfl (fun step hstep => (sound.steps step hstep).2) missing rfl }
      intro other hother
      rcases List.mem_cons.mp hother with rfl | hother
      · exact hgood _ _ goodStep
      · exact hgood _ _ (sound.steps other hother).1

/-- The count of the references may go on without a run. -/
theorem Sound.further (h : a.Sound) (hnext : a.session.nextId ≤ next)
    (resolver : Scoping.Analysis) :
    Account.Sound ⟨⟨a.session.machine, next, resolver⟩, a.records, a.accepted⟩ where
  scene := h.scene
  settled := h.settled
  bound := fun id hid => h.bound id (Nat.le_trans hnext hid)
  numbered := fun x hx ref href => Nat.lt_of_lt_of_le (h.numbered x hx ref href) hnext
  contained := h.contained

/-- Nothing is run, and at most the count of the references goes on. -/
theorem Sound.unrun (h : a.Sound) (hnext : a.session.nextId ≤ next) {diagnostics : List Diagnostic}
    (static : ∀ d ∈ diagnostics, d.report.isStatic = true) (resolver : Scoping.Analysis) :
    Watched.Sound (α := α)
      ⟨.error diagnostics, ⟨⟨a.session.machine, next, resolver⟩, a.records, a.accepted⟩, []⟩ where
  account := h.further hnext resolver
  steps := by simp
  ending := by
    refine .elsewhere (by simp) ?_
    rintro line cause ⟨_, ⟨⟩, hmem⟩
    exact absurd (static _ hmem) (by simp [Diagnostic.report, Stop.report, Report.isStatic])

/-- A source is run by a sound account if the tree of it is run steadily. -/
theorem Sound.proceed (h : a.Sound) {source : List UInt8} {reading : Reading α}
    (said : reading.result ≠ .error []) (hnext : a.session.nextId ≤ reading.nextId)
    {program : α → List Stmt}
    (good : ∀ t, reading.result = .ok t →
      Grammar.GoodBody False a.session.nextId reading.nextId (program t))
    {watch : α → Watch β}
    (steady : ∀ t added, reading.result = .ok t → Scoping.resolve (program t) = .ok added →
      Steady (a.KnownWith (program t)) none (watch t) ⟨a.opening added, []⟩ fun _ _ => True) :
    (Account.proceed { a with session.nextId := reading.nextId } (Session.gate source reading)
      program watch).Sound := by
  unfold Account.proceed
  cases hgate : Session.gate source reading with
  | error diagnostics =>
    obtain ⟨rfl, -⟩ := Session.gate_error said hgate
    exact h.unrun hnext isStatic_of_mem_gate a.session.resolver
  | ok t =>
    have hread := (Session.gate_ok hgate).1
    obtain ⟨resolver, hresolver⟩ := Session.exists_resolveWith a.session.resolver (program t)
    cases hresolved : Scoping.resolve (program t) with
    | error problems =>
      simp only [hresolver, hresolved]
      refine h.unrun hnext ?_ resolver
      intro d hd
      obtain ⟨problem, -, rfl⟩ := List.mem_map.mp hd
      rfl
    | ok added =>
      simp only [hresolver, hresolved]
      exact h.perform hnext (good t hread) hresolved (steady t added hread hresolved) resolver

/-- The tree of an expression that is read is good as the only statement of a program. -/
theorem readExpression_goodBody (source : List UInt8) (nextId : RefId) {e : Expr}
    (hread : (readExpression (tokensOf source) nextId).result = .ok e) :
    Grammar.GoodBody False nextId (readExpression (tokensOf source) nextId).nextId
      [.expression e] := by
  obtain ⟨-, good⟩ := readExpression_good (plainToken_tokensOf source) nextId
  obtain ⟨formed, spans⟩ := good e hread
  have unbroken : ∀ s ∈ [Stmt.expression e], s.Breaks → False := by
    intro s hs hbreaks
    rw [List.mem_singleton.mp hs] at hbreaks
    cases hbreaks
  refine ⟨⟨⟨formed, trivial⟩, unbroken⟩, ?_⟩
  simpa [occurrencesInBody, Stmt.occurrences] using spans

theorem known_expression (a : Account) (e : Expr) :
    ∀ x ∈ e.sites [], a.KnownWith [.expression e] x := by
  intro x hx
  refine .inr ?_
  simpa [sitesInBody, Stmt.sites] using .inr hx

theorem Sound.run (h : a.Sound) (budget : Nat) (source : List UInt8) :
    (a.run budget source).Sound := by
  obtain ⟨hnext, good⟩ := readProgram_good (plainToken_tokensOf source) a.session.nextId
  have said := Grammar.read_ne_nil Grammar.program (tokensOf source) a.session.nextId
  refine h.proceed said hnext good ?_
  intro tree added hread hresolved
  have ready := h.opening (good tree hread) hresolved
  have hsteady := steady_interpret budget tree ready (good tree hread).1.1 fun x hx => .inr hx
  have hcurrent : (a.opening added).machine.current = none := h.settled
  rw [hcurrent] at hsteady
  exact hsteady.mono fun _ _ _ _ => trivial

theorem Sound.evaluate (h : a.Sound) (budget : Nat) (source : List UInt8) :
    (a.evaluate budget source).Sound := by
  obtain ⟨hnext, -⟩ := readExpression_good (plainToken_tokensOf source) a.session.nextId
  have said := Grammar.read_ne_nil Grammar.wholeExpression (tokensOf source) a.session.nextId
  refine h.proceed said hnext (fun e => readExpression_goodBody source a.session.nextId) ?_
  intro e added hread hresolved
  have good := readExpression_goodBody source a.session.nextId hread
  have hsteady := (steadyAt _ budget).evaluate e [] _ (h.opening good hresolved) good.1.1.1
    (known_expression a e)
  exact hsteady.mono fun _ _ _ _ => trivial

/-- What an account takes next is sound. -/
theorem Sound.take (h : a.Sound) (budget : Nat) (input : Input) : (a.take budget input).Sound := by
  unfold Account.take
  cases input.job with
  | nothing => exact Watched.sound_unrun h (by simp [Tells])
  | program source => exact (h.run budget source).map _
  | expression source => exact (h.evaluate budget source).map _

/-- Whatever happens to a session, its account stays sound. -/
theorem Sound.after (h : a.Sound) (event : Event) : (a.after event).Sound := by
  cases event with
  | input budget input => exact (h.take budget input).account
  | output sink =>
    have hcalm : a.session.machine.Calm (·.Sound a.Known a.scene)
        { a.session.machine with sink := sink } := calm_same rfl rfl rfl rfl rfl rfl
    exact
      { scene := sound_of_calm h.scene hcalm
        settled := h.settled
        bound := h.bound
        numbered := h.numbered
        contained := h.contained }

/-- The account behind any events is sound. -/
theorem sound_through (host : Host) (sink : Sink) (events : List Event) :
    ((start host sink).through events).Sound := by
  have hthrough : ∀ a : Account, a.Sound → (a.through events).Sound := by
    induction events with
    | nil => exact fun _ h => h
    | cons event rest ih => exact fun a h => ih _ (h.after event)
  exact hthrough _ (sound_start host sink)

end Account

end LoxLang
