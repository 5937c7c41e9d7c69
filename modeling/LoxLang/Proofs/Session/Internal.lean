import LoxLang.Proofs.Evaluation.Closed
import LoxLang.Proofs.Session.Invariant

/-!
# Internal failures

A run of an accepted program can fail, but not for a cause that lies in the interpreter
(`FailureCause.internal`): each occurrence of `this` and `super` has a binding, whatever has one is
looked up from a frame, and every frame that is referred to is there.
-/

namespace LoxLang

/-- The reference of `this` or `super`. -/
def Expr.implicit? : Expr → Option RefId
  | .this id _ => some id
  | .super id _ _ => some id
  | _ => none

/-- What a step can count on: all frames that are referred to are there, also from the value that
it evaluates to; `this` and `super` have bindings; and where something has one there is a current
frame. -/
structure Step.Grounded (step : Step) : Prop where
  closed : step.scene.machine.Closed
  bound : ∀ e id, step.moment = .evaluating e → e.implicit? = some id →
    (step.scene.machine.bindings[id]?).isSome = true
  current : ∀ ref, step.moment.reference? = some ref →
    (step.scene.machine.bindings[ref.id]?).isSome = true → step.scene.machine.current.isSome = true
  value : ∀ e, step.moment = .evaluating e → ∀ budget v m,
    evaluate budget e step.scene.machine = .ok v m → m.Closed ∧ v.Inside m.frames

variable {known : Site → Prop}

/-! ## Steps -/

/-- Where sites are sheltered, the references of `this` and `super` are bound. -/
theorem Bindings.Agrees.implicit {table : Bindings} (h : table.Agrees known)
    (sheltered : ∀ x, known x → x.Sheltered) {p : Position} {e : Expr}
    (site : known ⟨p, .evaluating e⟩) {id : RefId} (hid : e.implicit? = some id) :
    (table[id]?).isSome = true := by
  have hsheltered := sheltered _ site
  cases e with
  | this other line =>
    have hlookup := h _ site ⟨other, ⟨thisName, line⟩⟩ rfl
    obtain rfl : other = id := Option.some.inj hid
    rw [hlookup]
    exact hsheltered
  | super other line method =>
    have hlookup := h _ site ⟨other, ⟨superName, line⟩⟩ rfl
    obtain rfl : other = id := Option.some.inj hid
    rw [hlookup]
    exact hsheltered.provides.lookup
  | _ => cases hid

theorem Step.Good.grounded {step : Step} (h : step.Good known) : step.Grounded := by
  obtain ⟨p, moment, ready⟩ := h.ready
  have sound := ready.sound.scene
  refine ⟨ready.here.closed sound, ?_, ?_, ?_⟩
  · intro e id hmoment hid
    have site := moment.site
    rw [hmoment] at site
    exact sound.agreed.implicit sound.sheltered site hid
  · intro ref href hbound
    obtain ⟨b, hb⟩ := Option.isSome_iff_exists.mp hbound
    obtain ⟨id, hcurrent⟩ := ready.here.current sound moment.site href hb
    exact Option.isSome_iff_exists.mpr ⟨id, hcurrent⟩
  · intro e hmoment budget v m hrun
    obtain ⟨formed, sites⟩ := moment.code e hmoment
    have hsteady := (steadyAt known budget).evaluate e p _ ready formed sites
    obtain ⟨c, rfl, sound', later, hv⟩ := hsteady.exists_ok (Watch.erases_evaluate budget e) hrun
    exact ⟨(ready.here.later later).closed sound'.scene, hv.inside sound'.scene.recorded⟩

/-! ## Sessions -/

/-- What is told of a failure does not have to do with the interpreter. -/
theorem Watched.Ending.not_internal {α : Type} {w : Watched α} (h : w.Ending) {line : Nat}
    {cause : FailureCause} (told : Tells w.result line cause) : cause.internal = false := by
  cases h with
  | elsewhere found ordinary =>
    exact FailureCause.not_internal_of_ordinary (ordinary line cause told)
  | missing steps found missing result =>
    obtain ⟨diagnostics, hresult, hmem⟩ := told
    rw [result] at hresult
    cases hresult
    cases List.mem_singleton.mp hmem
    rfl

/-- In a session no run fails for an internal cause, or with a message that begins like that of
one. All `this` and `super` of the trees accepted so far have bindings, each step of a run is
grounded, and behind the run all frames that are referred to are there. -/
theorem internal_failures_unreachable (host : Host) (sink : Sink) (events : List Event)
    (budget : Nat) (input : Input) :
    let s := (Session.start host sink).through events
    let w := ((Account.start host sink).through events).take budget input
    let outcome := s.take budget input
    w.outcome = outcome ∧
      (∀ line cause, Tells outcome.result line cause → cause.internal = false ∧
        ∀ word ∈ FailureCause.internalOpenings, ¬word.toList <+: cause.message.toList) ∧
      (∀ program ∈ w.account.accepted, ∀ x ∈ sitesInBody [] program, ∀ e id,
        x.moment = .evaluating e → e.implicit? = some id →
          (outcome.session.machine.bindings[id]?).isSome = true) ∧
      (∀ step ∈ w.steps, step.Grounded) ∧ outcome.session.machine.Closed := by
  intro s w outcome
  have houtcome : w.outcome = outcome := Account.outcome_through host sink events budget input
  have hsound : w.Sound := (Account.sound_through host sink events).take budget input
  rw [← houtcome]
  refine ⟨rfl, ?_, ?_, ?_, ?_⟩
  · intro line cause told
    have hinternal : cause.internal = false := hsound.ending.not_internal told
    exact ⟨hinternal, FailureCause.not_opens hinternal⟩
  · rintro program hprogram ⟨p, moment⟩ hx e id rfl hid
    exact hsound.account.scene.agreed.implicit hsound.account.scene.sheltered
      ⟨program, hprogram, hx⟩ hid
  · exact fun step hstep => (hsound.steps step hstep).grounded
  · refine hsound.account.scene.closed ?_
    intro id hid
    have hcurrent : w.account.scene.machine.current = none := hsound.account.settled
    rw [hcurrent] at hid
    cases hid

end LoxLang
