import LoxLang.Proofs.Evaluation.Accesses
import LoxLang.Proofs.Session.Invariant

/-!
# Frames and slots

What a good step says of the frames: they are those of the scopes around the step
(`Scene.Aligned`), and what evaluation reads or writes there for an occurrence is the variable that
the text says (`Step.Accesses`). With the invariant of accounts this holds of every step of every
run of a session.
-/

namespace LoxLang

/-! ## Steps of a session -/

/-- What is looked up at a step is what the text says: a global where no scope around has begun
to declare the name, and otherwise the variable that the innermost scope that has begun to
declare it has of that name. `super` is looked up together with the `this` just inside it. -/
structure Step.Lexical (step : Step) (p : Position) : Prop where
  bound : ∀ ref, step.moment.reference? = some ref →
    step.scene.machine.bindings[ref.id]? = p.lookup? ref.name.text
  found : ∀ ref b, step.moment.reference? = some ref → p.lookup? ref.name.text = some b →
    step.scene.Finds p b ref.name.text
  receiver : ∀ id line method b, step.moment = .evaluating (.super id line method) →
    p.lookup? superName = some b →
    ∃ depth, b = ⟨depth + 1, 0⟩ ∧ step.scene.Finds p ⟨depth, 0⟩ thisName

/-- What evaluation does with variables at a step: which value it finds, and which slot it gives
another value. -/
structure Step.Accesses (step : Step) (p : Position) : Prop where
  /-- A variable that is looked up, be it as an expression, as a superclass or as a trait. -/
  lookedUp : ∀ ref, step.moment.reference? = some ref → step.scene.Reads p ref
    (Run.lookUp ref.id ref.name.text ref.name.line step.scene.machine)
  /-- A variable that is evaluated. -/
  evaluated : ∀ budget ref, step.moment = .evaluating (.variable ref) → step.scene.Reads p ref
    (evaluate (budget + 1) (.variable ref) step.scene.machine)
  /-- The object that a method is called for. -/
  receiver : ∀ budget id line, step.moment = .evaluating (.this id line) →
    step.scene.Reads p ⟨id, thisName, line⟩ (evaluate (budget + 1) (.this id line)
      step.scene.machine)
  /-- A method of the superclass: it is looked up from the class in the slot of `super`, and bound
  to the object in the slot of `this`. -/
  inherited : ∀ id line method, step.moment = .evaluating (.super id line method) →
    ∃ depth outer inner k object, p.lookup? superName = some ⟨depth + 1, 0⟩ ∧
      step.scene.Has p ⟨depth + 1, 0⟩ superName outer (.classValue k) ∧
      step.scene.Has p ⟨depth, 0⟩ thisName inner object ∧
      ∀ budget, evaluate (budget + 1) (.super id line method) step.scene.machine =
        bindFound (k.find? object.kind method.text) object method step.scene.machine
  /-- A value that is stored. -/
  stored : ∀ ref, step.moment = .storing ref → ∀ value, step.scene.Writes p ref value ()
    (Run.assign ref.id ref.name.text ref.name.line value step.scene.machine)
  /-- An assignment, which stores its value where the evaluation of the value has led to. -/
  assigned : ∀ budget ref e v m, step.moment = .evaluating (.assign ref e) →
    evaluate budget e step.scene.machine = .ok v m →
    ∃ s : Scene, s.machine = m ∧ s.Aligned p ∧ s.Writes p ref v v
      (evaluate (budget + 1) (.assign ref e) step.scene.machine)

section

variable {known : Site → Prop} {step : Step} {p : Position}

theorem Scene.At.lexical (here : step.scene.At p) (sound : step.scene.Sound known)
    (formed : p.Formed) (site : known ⟨p, step.moment⟩) : step.Lexical p where
  bound ref href := sound.agreed _ site ref href
  found ref b href hb := by
    obtain ⟨⟨layer, hlayer, hname⟩, -⟩ := Position.lookup?_eq_some hb
    exact here.finds sound.recorded formed hlayer hname
  receiver id line method b hmoment hb := by
    obtain ⟨depth, rfl, ⟨layer, hlayer, -, hdeclared⟩, -⟩ := formed.lookup_super hb
    have hname : layer.begun[0]? = some thisName := by
      unfold Layer.begun
      rw [hdeclared]
      rfl
    exact ⟨depth, rfl, here.finds sound.recorded formed hlayer hname⟩

theorem Scene.At.accesses (here : step.scene.At p) (sound : step.scene.Sound known)
    (formed : p.Formed) (site : step.moment.Known known p) : step.Accesses p where
  lookedUp ref href := here.reads sound formed site.site href
  evaluated budget ref hmoment := here.reads sound formed site.site (hmoment ▸ rfl)
  receiver budget id line hmoment := by
    have href : step.moment.reference? = some ⟨id, thisName, line⟩ := hmoment ▸ rfl
    exact here.reads sound formed site.site href
  inherited id line method hmoment := by
    obtain ⟨depth, outer, inner, k, object, hlookup, hsuper, hthis, htarget⟩ :=
      here.uses_super sound formed (hmoment ▸ site.site)
    refine ⟨depth, outer, inner, k, object, hlookup, hsuper, hthis, fun budget => ?_⟩
    simp only [evaluate, superMethod, bind, EStateM.bind, htarget]
  stored ref hmoment value := here.writes sound formed site.site (hmoment ▸ rfl) value
  assigned budget ref e v m hmoment hvalue := by
    have ready : Chronicle.Ready known p ⟨step.scene, []⟩ :=
      ⟨⟨sound, fun _ hstep => absurd hstep List.not_mem_nil⟩, here, formed⟩
    obtain ⟨s, hs, hhere, hsound, hwrites⟩ := ready.assigns (hmoment ▸ site) hvalue
    exact ⟨s, hs, hhere.aligned hsound.recorded, hwrites⟩

theorem Step.Good.lexical (h : step.Good known) :
    ∃ p, known ⟨p, step.moment⟩ ∧ step.scene.Aligned p ∧ step.Lexical p ∧ step.Accesses p := by
  obtain ⟨p, site, formed, here, sound⟩ := h
  exact ⟨p, site.site, here.aligned sound.recorded, here.lexical sound formed site.site,
    here.accesses sound formed site⟩

end

/-- In a session every step of every run is at a site of one of the trees accepted so far, with
the frames of the scopes around that site; and what is read or written there is the variable
that lexical scoping chooses. -/
theorem slot_discipline (host : Host) (sink : Sink) (events : List Event) (budget : Nat)
    (input : Input) :
    let s := (Session.start host sink).through events
    let a := (Account.start host sink).through events
    let w := a.take budget input
    a.session = s ∧ w.outcome = s.take budget input ∧
      ∀ step ∈ w.steps, ∃ program ∈ w.account.accepted, ∃ p,
        ⟨p, step.moment⟩ ∈ sitesInBody [] program ∧ step.scene.Aligned p ∧ step.Lexical p ∧
          step.Accesses p := by
  intro s a w
  have hsession : a.session = s := Account.session_through (Account.start host sink) events
  refine ⟨hsession, Account.outcome_through host sink events budget input, ?_⟩
  intro step hstep
  have hsound := (Account.sound_through host sink events).take budget input
  obtain ⟨p, ⟨program, hprogram, hsite⟩, haligned, hlexical, haccesses⟩ :=
    (hsound.steps step hstep).lexical
  exact ⟨program, hprogram, p, hsite, haligned, hlexical, haccesses⟩

end LoxLang
