import LoxLang.Proofs.Ensures
import LoxLang.Proofs.Evaluation.Watch
import LoxLang.Proofs.Machine.Causes
import LoxLang.Proofs.Machine.Soundness

/-!
# Steady runs

A watched run is steady if it leads from sound scenes to sound scenes, loses no frame, and takes
every step at a position of the step's moment. It may stop for an ordinary cause or at a variable
that is not there yet, but for no other one. `Steady` says this of one run from one chronicle;
`Steady.bind` puts runs together.
-/

namespace LoxLang

/-! ## Sound chronicles -/

/-- A moment at a position: its site is known, and so are those of an expression that is to be
evaluated. -/
structure Moment.Known (known : Site → Prop) (p : Position) (moment : Moment) : Prop where
  site : known ⟨p, moment⟩
  code : ∀ e, moment = .evaluating e → e.Formed ∧ ∀ x ∈ e.sites p, known x

namespace Step

/-- The moment stands, at a position that is known, where the scene is. -/
def Good (known : Site → Prop) (step : Step) : Prop :=
  ∃ p : Position, step.moment.Known known p ∧ p.Formed ∧ step.scene.At p ∧
    step.scene.Sound known

/-- What is looked up is a local variable whose slot is not filled yet. -/
def Missing (step : Step) (slot : Nat) : Prop :=
  ∃ ref binding frame, step.moment.reference? = some ref ∧
    step.scene.machine.bindings[ref.id]? = some binding ∧
    step.scene.machine.current = some frame ∧
    step.scene.machine.frames.holder frame binding.depth binding.slot = .error (.unbound slot)

end Step

/-- A scene that a run can be at, and steps that a run can have taken on the way. -/
structure Chronicle.Sound (known : Site → Prop) (c : Chronicle) : Prop where
  scene : c.scene.Sound known
  steps : ∀ step ∈ c.steps, step.Good known ∧ ∀ slot, ¬step.Missing slot

/-- A stop for an ordinary cause, if for any. -/
def Stop.Ordinary (stop : Stop) : Prop :=
  ∀ line cause, stop = .failed line cause → cause.ordinary = true

/-- How a run can end before its end: for an ordinary cause, or at a variable that is not there
yet, which then is what the last step looks up. -/
inductive Chronicle.Stopped (known : Site → Prop) : Stop → Chronicle → Prop
  | elsewhere {stop : Stop} {c : Chronicle} (sound : c.Sound known) (cause : stop.Ordinary) :
      Stopped known stop c
  | missing {s : Scene} {step : Step} {earlier : List Step} {line slot : Nat}
      (sound : Chronicle.Sound known ⟨s, earlier⟩) (good : step.Good known)
      (missing : step.Missing slot) :
      Stopped known (.failed line (.frame (.unbound slot))) ⟨s, step :: earlier⟩

/-! ## Steady runs -/

variable {α β : Type} {known : Site → Prop} {growing : Option FrameId}

/-- From a chronicle, a watched run leads to a sound one with a result in relation `result` to
its scene, or stops. Among the frames that there are, only the given one, if any, has new
variables. -/
def Steady (known : Site → Prop) (growing : Option FrameId) (watch : Watch α) (c : Chronicle)
    (result : α → Scene → Prop) : Prop :=
  Ensures watch c
    (fun a c' => c'.Sound known ∧ c.scene.Later growing c'.scene ∧ result a c'.scene)
    fun stop c' => c'.Stopped known stop ∧ c.scene.Stays c'.scene

variable {watch : Watch α} {c : Chronicle} {result : α → Scene → Prop}

theorem Steady.mono {result' : α → Scene → Prop} (h : Steady known growing watch c result)
    (imp : ∀ a s, c.scene.Later growing s → result a s → result' a s) :
    Steady known growing watch c result' :=
  Ensures.mono h (fun a _ ⟨sound, later, hresult⟩ => ⟨sound, later, imp a _ later hresult⟩)
    fun _ _ h => h

/-- What a steady run comes to if what is watched comes to a result. -/
theorem Steady.exists_ok {run : Run α} (h : Steady known growing watch c result)
    (erases : Watch.Erases watch run) {a : α} {m : Machine}
    (hrun : run c.scene.machine = .ok a m) :
    ∃ c' : Chronicle, c'.scene.machine = m ∧ c'.Sound known ∧ c.scene.Later growing c'.scene ∧
      result a c'.scene := by
  obtain ⟨c', hwatch, hmachine⟩ := erases.exists_ok hrun
  obtain ⟨sound, later, hresult⟩ := Ensures.of_ok h hwatch
  exact ⟨c', hmachine, sound, later, hresult⟩

theorem Steady.weaken (h : Steady known none watch c result) (growing : Option FrameId) :
    Steady known growing watch c result :=
  Ensures.mono h (fun _ _ ⟨sound, later, hresult⟩ => ⟨sound, later.weaken growing, hresult⟩)
    fun _ _ h => h

theorem steady_pure {a : α} (sound : c.Sound known) (h : result a c.scene) :
    Steady known growing (pure a) c result :=
  ⟨sound, .refl growing c.scene, h⟩

/-- A run after another, from where the first one leads to. -/
theorem Steady.bind {next : α → Watch β} {result' : β → Scene → Prop}
    (h : Steady known growing watch c result)
    (h' : ∀ a c', c'.Sound known → c.scene.Later growing c'.scene → result a c'.scene →
      Steady known growing (next a) c' result') :
    Steady known growing (watch >>= next) c result' := by
  refine Ensures.bind h ?_
  intro a c' ⟨sound, later, hresult⟩
  refine Ensures.mono (h' a c' sound later hresult) ?_ ?_
  · intro b c'' ⟨sound', later', hresult'⟩
    exact ⟨sound', later.trans later', hresult'⟩
  · intro stop c'' ⟨stopped, stays⟩
    exact ⟨stopped, later.toStays.trans stays⟩

/-- A run in which some frame grows, after one in which none does. -/
theorem Steady.before {next : α → Watch β} {result' : β → Scene → Prop}
    (h : Steady known none watch c result)
    (h' : ∀ a c', c'.Sound known → c.scene.Later none c'.scene → result a c'.scene →
      Steady known growing (next a) c' result') :
    Steady known growing (watch >>= next) c result' := by
  have hboth : Steady known none watch c fun a s => c.scene.Later none s ∧ result a s :=
    h.mono fun _ _ later hresult => ⟨later, hresult⟩
  exact (hboth.weaken growing).bind fun a c' sound _ ⟨later, hresult⟩ => h' a c' sound later hresult

theorem steady_exhausted (sound : c.Sound known) :
    Steady known growing (throw .exhausted : Watch α) c result :=
  ⟨.elsewhere sound nofun, .refl c.scene⟩

/-- A step at a position of its moment, at which nothing is missing. -/
theorem Chronicle.Sound.marked {moment : Moment} {p : Position} (sound : c.Sound known)
    (site : moment.Known known p) (formed : p.Formed) (here : c.scene.At p)
    (quiet : moment.reference? = none) :
    Chronicle.Sound known ⟨c.scene, ⟨moment, c.scene⟩ :: c.steps⟩ := by
  refine ⟨sound.scene, ?_⟩
  intro step hstep
  rcases List.mem_cons.mp hstep with rfl | hstep
  · refine ⟨⟨p, site, formed, here, sound.scene⟩, ?_⟩
    rintro slot ⟨ref, binding, frame, href, -⟩
    rw [quiet] at href
    cases href
  · exact sound.steps step hstep

/-! ## Quiet pieces of a run -/

/-- A machine that differs only in what is not in frames, has lost no object, and stores nothing
but what was stored before or satisfies `new`. -/
structure Machine.Calm (new : Value → Prop) (m m' : Machine) : Prop where
  frames : m'.frames = m.frames
  bindings : m'.bindings = m.bindings
  current : m'.current = m.current
  objects : m.objects.size ≤ m'.objects.size
  stored : ∀ v, m'.Stores v → m.Stores v ∨ new v

theorem Machine.Calm.refl (new : Value → Prop) (m : Machine) : m.Calm new m :=
  ⟨rfl, rfl, rfl, Nat.le_refl _, fun _ h => .inl h⟩

theorem Machine.Calm.mono {new new' : Value → Prop} {m m' : Machine} (h : Machine.Calm new m m')
    (imp : ∀ v, new v → new' v) : m.Calm new' m' :=
  ⟨h.frames, h.bindings, h.current, h.objects, fun v hv => (h.stored v hv).imp_right (imp v)⟩

theorem Machine.Calm.trans {new : Value → Prop} {m m' m'' : Machine} (h : Machine.Calm new m m')
    (h' : Machine.Calm new m' m'') : Machine.Calm new m m'' where
  frames := h'.frames.trans h.frames
  bindings := h'.bindings.trans h.bindings
  current := h'.current.trans h.current
  objects := Nat.le_trans h.objects h'.objects
  stored v hv := by
    rcases h'.stored v hv with hv | hv
    · exact h.stored v hv
    · exact .inr hv

/-- A piece of a run that leaves the frames as they are. -/
def Quiet (new : Value → Prop) (run : Run α) (m : Machine) (result : α → Prop) : Prop :=
  Ensures run m (fun a m' => m.Calm new m' ∧ result a) fun stop m' => m.Calm new m' ∧ stop.Ordinary

theorem later_of_calm {new : Value → Prop} {s : Scene} {m : Machine} (h : s.machine.Calm new m) :
    s.Later none ⟨m, s.records⟩ where
  records _ r hr := ⟨r, hr, rfl, List.prefix_rfl, fun _ => rfl⟩
  outer _ _ _ := by rw [h.frames]
  implicit _ _ hr _ := hr
  current := h.current
  bindings := h.bindings

theorem sound_of_calm {s : Scene} {m : Machine} (sound : s.Sound known)
    (h : s.machine.Calm (·.Sound known s) m) : Scene.Sound known ⟨m, s.records⟩ where
  recorded := by
    obtain ⟨size, values, names, outward⟩ := sound.recorded
    refine ⟨?_, ?_, names, ?_⟩
    · rw [h.frames]
      exact size
    · rw [h.frames]
      exact values
    · rw [h.frames]
      exact outward
  agreed := by
    rw [h.bindings]
    exact sound.agreed
  stored v hv := by
    refine Value.Sound.keeps ?_ (later_of_calm h).toKeeps
    rcases h.stored v hv with hv | hv
    · exact sound.stored v hv
    · exact hv
  sheltered := sound.sheltered
  superclasses := sound.superclasses

theorem steady_quietly {run : Run α} {result : α → Prop} (sound : c.Sound known)
    (h : Quiet (·.Sound known c.scene) run c.scene.machine result) :
    Steady known none (Watch.quietly run) c fun a _ => result a := by
  unfold Quiet Ensures at h
  unfold Steady Ensures Watch.quietly Watch.settle
  cases hrun : run c.scene.machine with
  | ok a m =>
    rw [hrun] at h
    obtain ⟨calm, hresult⟩ := h
    exact ⟨⟨sound_of_calm sound.scene calm, sound.steps⟩, later_of_calm calm, hresult⟩
  | error stop m =>
    rw [hrun] at h
    obtain ⟨calm, ordinary⟩ := h
    exact ⟨.elsewhere ⟨sound_of_calm sound.scene calm, sound.steps⟩ ordinary,
      (later_of_calm calm).toStays⟩

/-- A value that is found or made is sound in the scene behind, too. -/
theorem steady_value {run : Run Value} (sound : c.Sound known)
    (h : Quiet (·.Sound known c.scene) run c.scene.machine (·.Sound known c.scene)) :
    Steady known none (Watch.quietly run) c fun v s => v.Sound known s :=
  (steady_quietly sound h).mono fun _ _ later hv => hv.keeps later.toKeeps

/-- What fails for an ordinary cause. -/
theorem steady_fail {line : Nat} {cause : FailureCause} {result : α → Scene → Prop}
    (sound : c.Sound known) (h : cause.ordinary = true) :
    Steady known none (Watch.quietly (Run.fail line cause)) c result := by
  refine ⟨.elsewhere sound ?_, .refl c.scene⟩
  rintro _ _ ⟨⟩
  exact h

section

variable {new : Value → Prop} {m : Machine} {run : Run α} {post : α → Prop}

theorem quiet_pure {a : α} (h : post a) : Quiet new (pure a) m post :=
  ⟨.refl new m, h⟩

theorem quiet_fail {line : Nat} {cause : FailureCause} (h : cause.ordinary = true) :
    Quiet new (Run.fail line cause) m post := by
  refine ⟨.refl new m, ?_⟩
  rintro _ _ ⟨⟩
  exact h

theorem Quiet.bind {next : α → Run β} {post' : β → Prop} (h : Quiet new run m post)
    (h' : ∀ a m', m.Calm new m' → post a → Quiet new (next a) m' post') :
    Quiet new (run >>= next) m post' := by
  refine Ensures.bind h ?_
  intro a m' ⟨calm, hpost⟩
  refine Ensures.mono (h' a m' calm hpost) ?_ ?_
  · intro b m'' ⟨calm', hpost'⟩
    exact ⟨calm.trans calm', hpost'⟩
  · intro stop m'' ⟨calm', ordinary⟩
    exact ⟨calm.trans calm', ordinary⟩

/-- A piece of a run that leaves the machine as it is. -/
def Inert (run : Run α) (m : Machine) (result : α → Prop) : Prop :=
  Ensures run m (fun a m' => m' = m ∧ result a) fun stop m' => m' = m ∧ stop.Ordinary

theorem Inert.quiet (h : Inert run m post) : Quiet new run m post :=
  Ensures.mono h (fun _ _ ⟨same, hpost⟩ => ⟨same ▸ .refl new m, hpost⟩)
    fun _ _ ⟨same, ordinary⟩ => ⟨same ▸ .refl new m, ordinary⟩

theorem inert_pure {a : α} (h : post a) : Inert (pure a) m post :=
  ⟨rfl, h⟩

theorem inert_fail {line : Nat} {cause : FailureCause} (h : cause.ordinary = true) :
    Inert (Run.fail line cause) m post := by
  refine ⟨rfl, ?_⟩
  rintro _ _ ⟨⟩
  exact h

end

end LoxLang
