import LoxLang.Proofs.Evaluation.Discipline
import LoxLang.Proofs.Evaluation.Origins

/-!
# Runs that make what they use

A run leads from scenes whose frames and values were made by past steps to such scenes, whether it
comes to a result or stops (`Making`). Where steps are past that were taken before the run, they
are given by `past`. What the pieces of a run do is said here; that positions agree with frames is
known from steady runs.
-/

namespace LoxLang

/-! ## Scenes and chronicles that were made -/

/-- A frame that lies where the scope it was made for lies: one of `this` holds an object, a block
is in no frame of `this` or `super`, and a call is in the frame of its closure. -/
def Scene.Placed (past : Step → Prop) (s : Scene) (id : FrameId) (r : Record) : Prop :=
  match r.region with
  | .receiver => ∃ kind v, r = Watch.receiverRecord v ∧ v.Answers kind
  | .block _ => s.Plain (s.machine.frames.outer? id)
  | .function g => ∃ f : Closure, f.Made past s ∧ f.function = g ∧
      s.machine.frames.outer? id = f.frame
  | .superclass => True

/-- A scene all of whose frames and values were made by past steps, and that retains what there was
at each of these. -/
structure Scene.Made (past : Step → Prop) (s : Scene) : Prop where
  stored : ∀ v, s.machine.Stores v → v.Made past s
  current : s.Plain s.machine.current
  frames : ∀ id r, s.records[id]? = some r → s.Placed past id r
  retained : ∀ step, past step → step.scene.Retains s

/-- The steps that are past behind a chronicle. -/
def Chronicle.Past (past : Step → Prop) (c : Chronicle) (step : Step) : Prop :=
  past step ∨ step ∈ c.steps

/-- A chronicle all of whose scenes were made by the steps before them. -/
structure Chronicle.Made (past : Step → Prop) (c : Chronicle) : Prop where
  scene : c.scene.Made (c.Past past)
  steps : ∀ step earlier, step :: earlier <:+ c.steps →
    step.scene.Made fun other => past other ∨ other ∈ earlier

/-- A chronicle later in the same run. -/
structure Chronicle.Onward (c c' : Chronicle) : Prop where
  retains : c.scene.Retains c'.scene
  steps : c.steps <:+ c'.steps

section

variable {past past' : Step → Prop} {s s' : Scene} {c c' c'' : Chronicle}

theorem Scene.Placed.later {id : FrameId} {r r' : Record} (h : s.Placed past id r)
    (more : ∀ step, past step → past' step) (retains : s.Retains s')
    (hr : s.records[id]? = some r) (hr' : s'.records[id]? = some r') : s'.Placed past' id r' := by
  obtain ⟨found, hfound, hregion, hsame⟩ := retains.records id r hr
  rw [hr', Option.some.injEq] at hfound
  subst hfound
  have houter := retains.outer id r hr
  unfold Scene.Placed at h ⊢
  rw [hregion]
  cases hkind : r.region with
  | receiver =>
    simp only [hkind] at h ⊢
    rw [hsame (by rw [hkind]; trivial)]
    exact h
  | block body =>
    simp only [hkind] at h ⊢
    rw [houter]
    exact h.retains retains
  | function g =>
    simp only [hkind] at h ⊢
    obtain ⟨f, made, hfunction, hframe⟩ := h
    exact ⟨f, made.later more retains, hfunction, houter.trans hframe⟩
  | superclass => trivial

/-- A scene was made if it retains one that was, and what it adds to that was made. -/
theorem Scene.Made.onward (h : s.Made past) (more : ∀ step, past step → past' step)
    (retains : s.Retains s')
    (stored : ∀ v, s'.machine.Stores v → s.machine.Stores v ∨ v.Made past' s')
    (current : s'.Plain s'.machine.current)
    (frames : ∀ (id : FrameId) (r : Record), s'.records[id]? = some r →
      (∃ r₀, s.records[id]? = some r₀) ∨ s'.Placed past' id r)
    (retained : ∀ step, past' step → past step ∨ step.scene.Retains s') : s'.Made past' where
  stored v hv := by
    rcases stored v hv with hv | hv
    · exact (h.stored v hv).later more retains
    · exact hv
  current := current
  frames id r hr := by
    rcases frames id r hr with ⟨r₀, hr₀⟩ | placed
    · exact (h.frames id r₀ hr₀).later more retains hr₀ hr
    · exact placed
  retained step hstep := by
    rcases retained step hstep with hpast | hretains
    · exact (h.retained step hpast).trans retains
    · exact hretains

/-- A run that starts at a scene has taken no steps. -/
theorem Scene.Made.chronicle (h : s.Made past) : Chronicle.Made past ⟨s, []⟩ where
  scene := h.onward (fun _ h => .inl h) (.refl _) (fun _ hv => .inl hv) h.current
    (fun _ r hr => .inl ⟨r, hr⟩) fun _ hstep => hstep.elim .inl nofun
  steps step earlier hsuffix := by simp at hsuffix

theorem Chronicle.Onward.refl (c : Chronicle) : c.Onward c :=
  ⟨.refl c.scene, List.suffix_rfl⟩

theorem Chronicle.Onward.trans (h : c.Onward c') (h' : c'.Onward c'') : c.Onward c'' :=
  ⟨h.retains.trans h'.retains, h.steps.trans h'.steps⟩

theorem Chronicle.Onward.more (h : c.Onward c') (step : Step) (hstep : c.Past past step) :
    c'.Past past step :=
  hstep.imp_right fun hmem => h.steps.subset hmem

/-- What was made stays so in the same run. -/
theorem Value.Made.onward {v : Value} (h : v.Made (c.Past past) c.scene) (onward : c.Onward c') :
    v.Made (c'.Past past) c'.scene :=
  h.later onward.more onward.retains

/-- A scene without steps in between. -/
theorem Chronicle.Made.moved (h : c.Made past) (retains : c.scene.Retains s')
    (stored : ∀ v, s'.machine.Stores v → c.scene.machine.Stores v ∨ v.Made (c.Past past) s')
    (current : s'.Plain s'.machine.current)
    (frames : ∀ (id : FrameId) (r : Record), s'.records[id]? = some r →
      (∃ r₀, c.scene.records[id]? = some r₀) ∨ s'.Placed (c.Past past) id r) :
    Chronicle.Made past ⟨s', c.steps⟩ ∧ c.Onward ⟨s', c.steps⟩ :=
  ⟨⟨h.scene.onward (fun _ hstep => hstep) retains stored current frames fun _ hstep => .inl hstep,
    h.steps⟩, retains, List.suffix_rfl⟩

theorem Chronicle.Made.calm (h : c.Made past) {m : Machine}
    (calm : c.scene.machine.Calm (·.Made (c.Past past) c.scene) m) :
    Chronicle.Made past ⟨⟨m, c.scene.records⟩, c.steps⟩ ∧
      c.Onward ⟨⟨m, c.scene.records⟩, c.steps⟩ := by
  have retains : c.scene.Retains ⟨m, c.scene.records⟩ :=
    .of_keeps (later_of_calm calm).toKeeps calm.objects
  refine h.moved retains (fun v hv => ?_) ?_ fun id r hr => .inl ⟨r, hr⟩
  · exact (calm.stored v hv).imp_right fun hv => hv.later (fun _ h => h) retains
  · rw [calm.current]
    exact h.scene.current.retains retains

/-- A scene with one more value in a place that there was. -/
theorem Chronicle.Made.storing {value : Value} (h : c.Made past)
    (hvalue : value.Made (c.Past past) c.scene) (retains : c.scene.Retains s')
    (current : s'.machine.current = c.scene.machine.current)
    (stored : ∀ v, s'.machine.Stores v → c.scene.machine.Stores v ∨ v = value)
    (frames : ∀ (id : FrameId) (r : Record), s'.records[id]? = some r →
      ∃ r₀, c.scene.records[id]? = some r₀) :
    Chronicle.Made past ⟨s', c.steps⟩ ∧ c.Onward ⟨s', c.steps⟩ := by
  refine h.moved retains (fun v hv => ?_) ?_ fun id r hr => .inl (frames id r hr)
  · refine (stored v hv).imp_right ?_
    rintro rfl
    exact hvalue.later (fun _ h => h) retains
  · rw [current]
    exact h.scene.current.retains retains

/-- A step more. -/
theorem Chronicle.Made.marked (h : c.Made past) (moment : Moment) :
    Chronicle.Made past ⟨c.scene, ⟨moment, c.scene⟩ :: c.steps⟩ where
  scene := by
    refine h.scene.onward (fun step hstep => hstep.imp_right (List.mem_cons_of_mem _)) (.refl _)
      (fun v hv => .inl hv) h.scene.current (fun id r hr => .inl ⟨r, hr⟩) fun step hstep => ?_
    rcases hstep with hstep | hstep
    · exact .inl (.inl hstep)
    · rcases List.mem_cons.mp hstep with rfl | hstep
      · exact .inr (.refl _)
      · exact .inl (.inr hstep)
  steps step earlier hsuffix := by
    rcases List.suffix_cons_iff.mp hsuffix with heq | hsuffix
    · cases heq
      exact h.scene
    · exact h.steps step earlier hsuffix

theorem Chronicle.onward_mark (c : Chronicle) (moment : Moment) :
    c.Onward ⟨c.scene, ⟨moment, c.scene⟩ :: c.steps⟩ :=
  ⟨.refl c.scene, List.suffix_cons _ _⟩

end

/-! ## Runs -/

/-- From a chronicle, a watched run leads to one that was made, with a result in relation
`result` to that, or stops at one. -/
def Making {α : Type} (past : Step → Prop) (watch : Watch α) (c : Chronicle)
    (result : α → Chronicle → Prop) : Prop :=
  Ensures watch c (fun a c' => (c'.Made past ∧ c.Onward c') ∧ result a c')
    fun _ c' => c'.Made past ∧ c.Onward c'

section

variable {α β : Type} {past : Step → Prop} {known : Site → Prop} {growing : Option FrameId}
  {watch : Watch α} {c : Chronicle} {result : α → Chronicle → Prop}

theorem Making.mono {result' : α → Chronicle → Prop} (h : Making past watch c result)
    (imp : ∀ a c', c.Onward c' → result a c' → result' a c') : Making past watch c result' :=
  Ensures.mono h (fun a c' ⟨made, hresult⟩ => ⟨made, imp a c' made.2 hresult⟩) fun _ _ h => h

theorem making_pure {a : α} (made : c.Made past) (h : result a c) :
    Making past (pure a) c result :=
  ⟨⟨made, .refl c⟩, h⟩

theorem making_exhausted (made : c.Made past) :
    Making past (throw .exhausted : Watch α) c result :=
  ⟨made, .refl c⟩

/-- A run after another, from where the first one leads to. -/
theorem Making.next {next : α → Watch β} {result' : β → Chronicle → Prop}
    (h : Making past watch c result)
    (h' : ∀ a c', c'.Made past → c.Onward c' → result a c' → Making past (next a) c' result') :
    Making past (watch >>= next) c result' := by
  refine Ensures.bind h ?_
  intro a c' ⟨⟨made, onward⟩, hresult⟩
  refine Ensures.mono (h' a c' made onward hresult) ?_ ?_
  · intro b c'' ⟨⟨made', onward'⟩, hresult'⟩
    exact ⟨⟨made', onward.trans onward'⟩, hresult'⟩
  · intro stop c'' ⟨made', onward'⟩
    exact ⟨made', onward.trans onward'⟩

/-- A run after a steady one. -/
theorem Making.bind {next : α → Watch β} {result' : β → Chronicle → Prop}
    {steady : α → Scene → Prop} (h : Making past watch c result)
    (hsteady : Steady known growing watch c steady)
    (h' : ∀ a c', c'.Made past → c.Onward c' → result a c' → c'.Sound known →
      c.scene.Later growing c'.scene → steady a c'.scene → Making past (next a) c' result') :
    Making past (watch >>= next) c result' := by
  have hboth := Ensures.and h hsteady
  refine Ensures.bind (Ensures.mono hboth (fun _ _ h => h) fun _ _ h => h.1) ?_
  intro a c' ⟨⟨⟨made, onward⟩, hresult⟩, sound, later, hsound⟩
  refine Ensures.mono (h' a c' made onward hresult sound later hsound) ?_ ?_
  · intro b c'' ⟨⟨made', onward'⟩, hresult'⟩
    exact ⟨⟨made', onward.trans onward'⟩, hresult'⟩
  · intro stop c'' ⟨made', onward'⟩
    exact ⟨made', onward.trans onward'⟩

theorem Making.mark {moment : Moment} (made : c.Made past)
    (h : Chronicle.Made past ⟨c.scene, ⟨moment, c.scene⟩ :: c.steps⟩ →
      Making past watch ⟨c.scene, ⟨moment, c.scene⟩ :: c.steps⟩ result) :
    Making past (Watch.mark moment >>= fun _ => watch) c result := by
  have hmarked : Making past (Watch.mark moment) c
      fun _ c' => c' = ⟨c.scene, ⟨moment, c.scene⟩ :: c.steps⟩ :=
    ⟨⟨made.marked moment, c.onward_mark moment⟩, rfl⟩
  refine hmarked.next ?_
  rintro _ _ made' - rfl
  exact h made'

/-! ## Quiet pieces -/

theorem making_quietly {run : Run α} {result : α → Prop} (made : c.Made past)
    (h : Quiet (·.Made (c.Past past) c.scene) run c.scene.machine result) :
    Making past (Watch.quietly run) c fun a _ => result a := by
  unfold Making Ensures Watch.quietly Watch.settle
  unfold Quiet Ensures at h
  cases hrun : run c.scene.machine with
  | ok a m =>
    rw [hrun] at h
    exact ⟨made.calm h.1, h.2⟩
  | error stop m =>
    rw [hrun] at h
    exact made.calm h.1

/-- A value that is found or made by a quiet piece. -/
theorem making_value {run : Run Value} (made : c.Made past)
    (h : Quiet (·.Made (c.Past past) c.scene) run c.scene.machine (·.Made (c.Past past) c.scene)) :
    Making past (Watch.quietly run) c fun v c' => v.Made (c'.Past past) c'.scene :=
  (making_quietly made h).mono fun _ _ onward hv => hv.onward onward

theorem ensures_lookUp (id : RefId) (name : String) (line : Nat) (m : Machine) :
    Ensures (Run.lookUp id name line) m (fun v m' => m' = m ∧ m.Stores v) fun _ m' => m' = m := by
  unfold Ensures
  rcases local_or_global m id with
    ⟨b, frame, holder, hb, hframe, hholder⟩ | ⟨b, frame, fault, hb, hframe, hfault⟩ | hglobal
  · rw [lookUp_local hb hframe, slotValue, Frames.get_eq_ok _ hholder]
    exact ⟨rfl, stores_slot hholder⟩
  · rw [lookUp_local hb hframe, slotValue, Frames.get_eq_error _ hfault]
  · rw [lookUp_global hglobal]
    cases hvalue : m.globals.get? name with
    | some v => exact ⟨rfl, .global hvalue⟩
    | none => exact rfl

/-- What leaves the machine as it is. -/
theorem making_unchanged {run : Run α} {result : α → Prop} (made : c.Made past)
    (h : Ensures run c.scene.machine (fun a m => m = c.scene.machine ∧ result a)
      fun _ m => m = c.scene.machine) :
    Making past (Watch.quietly run) c fun a c' => result a ∧ c' = c := by
  unfold Making Ensures Watch.quietly Watch.settle
  unfold Ensures at h
  cases hrun : run c.scene.machine with
  | ok v m =>
    rw [hrun] at h
    obtain ⟨rfl, hresult⟩ := h
    exact ⟨⟨made, .refl c⟩, hresult, rfl⟩
  | error stop m =>
    rw [hrun] at h
    cases h
    exact ⟨made, .refl c⟩

theorem making_inert {run : Run α} {result : α → Prop} (made : c.Made past)
    (h : Inert run c.scene.machine result) :
    Making past (Watch.quietly run) c fun a c' => result a ∧ c' = c :=
  making_unchanged made (Ensures.mono h (fun _ _ h => h) fun _ _ h => h.1)

theorem making_fail {line : Nat} {cause : FailureCause} (made : c.Made past) :
    Making past (Watch.quietly (Run.fail line cause) : Watch α) c result :=
  ⟨made, .refl c⟩

/-- A variable that is read. -/
theorem making_lookUp (made : c.Made past) (id : RefId) (name : String) (line : Nat) :
    Making past (Watch.quietly (Run.lookUp id name line)) c
      fun v c' => v.Made (c.Past past) c.scene ∧ c' = c :=
  making_unchanged made (Ensures.mono (ensures_lookUp id name line c.scene.machine)
    (fun v _ h => ⟨h.1, made.scene.stored v h.2⟩) fun _ _ h => h)

/-- A watched run comes to the result that the run comes to. -/
theorem Making.erased {run : Run α} (h : Making past watch c result)
    (erases : Watch.Erases watch run) :
    Making past watch c
      fun a c' => result a c' ∧ run c.scene.machine = .ok a c'.scene.machine := by
  have herases := erases c
  unfold Making Ensures at h ⊢
  cases hwatch : watch c with
  | ok a c' =>
    rw [hwatch] at h herases
    exact ⟨h.1, h.2, herases.symm⟩
  | error stop c' =>
    rw [hwatch] at h
    exact h

/-! ## Frames -/

theorem making_framing {outer : Option FrameId} {run : Run α} {result : α → Prop}
    (made : c.Made past) (recorded : c.scene.Recorded) (record : Record)
    (values : ∀ v ∈ record.values, v.Made (c.Past past) c.scene)
    (placed : ∀ s, c.scene.Framed record outer s → c.scene.Retains s →
      s.Placed (c.Past past) c.scene.machine.frames.next record)
    (h : Framing outer record.values run c.scene.machine result) :
    Making past (Watch.framing record run) c
      fun a c' => result a ∧ c.scene.Framed record outer c'.scene := by
  unfold Framing Ensures at h
  unfold Making Ensures Watch.framing Watch.settle
  cases hrun : run c.scene.machine with
  | ok a m =>
    rw [hrun] at h
    obtain ⟨grown, hresult⟩ := h
    have hsize : c.scene.machine.frames.size < m.frames.size := by
      rw [grown.frames, Frames.size_framed]
      exact Nat.lt_succ_self _
    simp only [hsize, if_true]
    have framed := framed_of_grown recorded grown
    have retains : c.scene.Retains ⟨m, c.scene.records.push record⟩ :=
      .of_keeps framed.later.toKeeps (Nat.le_of_eq (congrArg Array.size grown.objects).symm)
    refine ⟨made.moved retains (fun v hv => ?_) ?_ fun id r hr => ?_, hresult, framed⟩
    · exact (grown.stored v hv).imp_right fun hv => (values v hv).later (fun _ h => h) retains
    · rw [grown.current]
      exact made.scene.current.retains retains
    · rcases record_cases recorded hr with hr | ⟨rfl, rfl⟩
      · exact .inl ⟨r, hr⟩
      · exact .inr (placed _ framed retains)
  | error stop m =>
    rw [hrun] at h
    obtain ⟨calm, -⟩ := h
    have hsize : ¬c.scene.machine.frames.size < m.frames.size := by
      rw [calm.frames]
      exact Nat.lt_irrefl _
    simp only [hsize, if_false]
    exact made.calm (calm.mono fun _ => False.elim)

/-- What could have made a frame but has not. -/
theorem making_framing_quiet {record : Record} {run : Run α} {result : α → Prop}
    (made : c.Made past)
    (h : Quiet (·.Made (c.Past past) c.scene) run c.scene.machine result) :
    Making past (Watch.framing record run) c fun a _ => result a := by
  unfold Quiet Ensures at h
  unfold Making Ensures Watch.framing Watch.settle
  cases hrun : run c.scene.machine with
  | ok a m =>
    rw [hrun] at h
    have hsize : ¬c.scene.machine.frames.size < m.frames.size := by
      rw [h.1.frames]
      exact Nat.lt_irrefl _
    simp only [hsize, if_false]
    exact ⟨made.calm h.1, h.2⟩
  | error stop m =>
    rw [hrun] at h
    have hsize : ¬c.scene.machine.frames.size < m.frames.size := by
      rw [h.1.frames]
      exact Nat.lt_irrefl _
    simp only [hsize, if_false]
    exact made.calm h.1

/-! ## Methods and their objects -/

/-- A method in the frame that binds it to an object. -/
theorem Closure.Written.bound {s s' : Scene} {kind : Kind} {method : Closure} {receiver : Value}
    (h : method.Written past s kind) (answers : receiver.Answers kind)
    (framed : s.Framed (Watch.receiverRecord receiver) method.frame s') (retains : s.Retains s') :
    Closure.Made past s' { method with frame := some s.machine.frames.next } :=
  .bound (h.later (fun _ h => h) retains) answers framed.record framed.outer

theorem placed_receiver {s : Scene} (id : FrameId) {kind : Kind} {receiver : Value}
    (answers : receiver.Answers kind) : s.Placed past id (Watch.receiverRecord receiver) :=
  ⟨kind, receiver, rfl, answers⟩

theorem making_bind {kind : Kind} {method : Closure} {receiver : Value} (made : c.Made past)
    (recorded : c.scene.Recorded) (written : method.Written (c.Past past) c.scene kind)
    (answers : receiver.Answers kind) (hreceiver : receiver.Made (c.Past past) c.scene) :
    Making past (Watch.framing (Watch.receiverRecord receiver) (method.bind receiver)) c
      fun f c' => f.Made (c'.Past past) c'.scene := by
  have hmaking := making_framing made recorded (Watch.receiverRecord receiver)
    (by simpa [Watch.receiverRecord, Record.values] using hreceiver)
    (fun _ _ _ => placed_receiver _ answers) (framing_bind method receiver c.scene.machine)
  refine hmaking.mono ?_
  rintro f c' onward ⟨rfl, framed⟩
  exact (written.bound answers framed onward.retains).later onward.more (.refl _)

theorem making_bindFound {kind : Kind} {found : Option Closure} {receiver : Value} (name : Name)
    (made : c.Made past) (recorded : c.scene.Recorded)
    (written : ∀ f, found = some f → f.Written (c.Past past) c.scene kind)
    (answers : receiver.Answers kind) (hreceiver : receiver.Made (c.Past past) c.scene) :
    Making past (Watch.framing (Watch.receiverRecord receiver) (bindFound found receiver name)) c
      fun v c' => v.Made (c'.Past past) c'.scene := by
  cases found with
  | none =>
    have hfail : Quiet (·.Made (c.Past past) c.scene) (bindFound none receiver name)
        c.scene.machine fun _ => False := quiet_fail rfl
    exact (making_framing_quiet made hfail).mono fun _ _ _ h => h.elim
  | some method =>
    have hmaking := making_framing made recorded (Watch.receiverRecord receiver)
      (by simpa [Watch.receiverRecord, Record.values] using hreceiver)
      (fun _ _ _ => placed_receiver _ answers)
      (framing_bindFound method receiver name c.scene.machine)
    refine hmaking.mono ?_
    rintro v c' onward ⟨⟨id, rfl⟩, framed⟩
    exact ((written method rfl).bound answers framed onward.retains).later onward.more (.refl _)

theorem making_property {object : Value} (name : Name) (made : c.Made past)
    (recorded : c.scene.Recorded) (hmade : object.Made (c.Past past) c.scene) :
    Making past (Watch.framing (Watch.receiverRecord object) (property object name)) c
      fun v c' => v.Made (c'.Past past) c'.scene := by
  cases hobject : object.object? with
  | none =>
    exact (making_framing_quiet made (quiet_property made_of_bare hobject name _)).mono
      fun _ _ onward hv => hv.onward onward
  | some found =>
    obtain ⟨id, k, kind⟩ := found
    unfold Making Ensures
    rcases stored_or_bound hobject name c.scene.machine with ⟨v, hstored, hrun⟩ | hrun
    · rw [framing_congr hrun]
      have hv : v.Made (c.Past past) c.scene := made.scene.stored v hstored
      exact (making_framing_quiet made (quiet_pure hv)).mono fun _ _ onward hv => hv.onward onward
    · rw [framing_congr hrun]
      exact making_bindFound name made recorded (fun f hf => ((hmade.class hobject).find hf).2)
        (Value.answers_of_object hobject) hmade

/-! ## Variables -/

theorem Chronicle.Made.explicit (made : c.Made past) {id : FrameId}
    (hid : c.scene.machine.current = some id) : c.scene.Explicit id :=
  fun _ hr => made.scene.current.explicit hid hr

theorem Chronicle.Made.withGlobal (made : c.Made past) {value : Value}
    (hvalue : value.Made (c.Past past) c.scene) (name : String) :
    Chronicle.Made past ⟨c.scene.withGlobal name value, c.steps⟩ ∧
      c.Onward ⟨c.scene.withGlobal name value, c.steps⟩ := by
  have retains : c.scene.Retains (c.scene.withGlobal name value) :=
    .of_keeps (later_withGlobal c.scene name value).toKeeps (Nat.le_refl _)
  exact made.storing hvalue retains rfl (fun _ => stores_withGlobal) fun _ r hr => ⟨r, hr⟩

theorem making_declare {name : String} {value : Value} (made : c.Made past)
    (recorded : c.scene.Recorded) (hvalue : value.Made (c.Past past) c.scene) :
    Making past (Watch.declare name value) c fun _ _ => True := by
  unfold Making Ensures
  cases hcurrent : c.scene.machine.current with
  | none =>
    rw [declare_global hcurrent]
    exact ⟨made.withGlobal hvalue name, trivial⟩
  | some id =>
    rw [declare_local hcurrent]
    have retains : c.scene.Retains (c.scene.declared id name value) :=
      .of_keeps (later_declared recorded (made.explicit hcurrent) name value).toKeeps
        (Nat.le_refl _)
    refine ⟨made.storing hvalue retains rfl (fun _ => stores_declared) fun other r hr => ?_,
      trivial⟩
    obtain ⟨r₀, hr₀, -⟩ := getElem?_modified hr
    exact ⟨r₀, hr₀⟩

/-- An assignment changes no frame of `this` or `super`. -/
theorem making_assign {p : Position} {ref : Reference} {value : Value} (made : c.Made past)
    (sound : c.scene.Sound known) (here : c.scene.At p) (formed : p.Formed)
    (site : known ⟨p, .storing ref⟩) (plain : ref.Plain)
    (hvalue : value.Made (c.Past past) c.scene) :
    Making past (Watch.assign ref value) c fun _ _ => True := by
  unfold Making Ensures
  rcases local_or_global c.scene.machine ref.id with
    ⟨b, id, holder, hb, hid, hholder⟩ | ⟨b, id, fault, hb, hid, hfault⟩ | hglobal
  · rw [assign_local hb hid hholder]
    have explicit := here.explicit sound formed site plain rfl hb hid hholder
    have retains : c.scene.Retains (c.scene.assigned holder b.slot value) :=
      .of_keeps (later_assigned sound.recorded explicit b.slot value).toKeeps (Nat.le_refl _)
    refine ⟨made.storing hvalue retains rfl (fun _ => stores_assigned) fun other r hr => ?_,
      trivial⟩
    obtain ⟨r₀, hr₀, -⟩ := getElem?_modified hr
    exact ⟨r₀, hr₀⟩
  · rw [assign_missing hb hid hfault]
    exact ⟨made, .refl c⟩
  · rw [assign_global hglobal]
    cases c.scene.machine.globals.contains ref.name.text with
    | false => exact ⟨made, .refl c⟩
    | true => exact ⟨made.withGlobal hvalue ref.name.text, trivial⟩

/-! ## Other frames -/

theorem Chronicle.Made.withCurrent (made : c.Made past) {frame : Option FrameId}
    (plain : c.scene.Plain frame) :
    Chronicle.Made past ⟨c.scene.withCurrent frame, c.steps⟩ ∧
      c.Onward ⟨c.scene.withCurrent frame, c.steps⟩ := by
  have retains : c.scene.Retains (c.scene.withCurrent frame) :=
    .of_keeps (keeps_withCurrent c.scene frame) (Nat.le_refl _)
  exact made.moved retains (fun v hv => .inl (stores_withCurrent hv)) (plain.retains retains)
    fun id r hr => .inl ⟨r, hr⟩

/-- What runs in a frame of a block or a call. -/
theorem making_within {body : Watch α} {frame : FrameId} (made : c.Made past)
    (plain : c.scene.Plain (some frame))
    (h : Chronicle.Made past ⟨c.scene.withCurrent (some frame), c.steps⟩ →
      Making past body ⟨c.scene.withCurrent (some frame), c.steps⟩ result)
    (stable : ∀ (a : α) (c' : Chronicle) (frame : Option FrameId), result a c' →
      result a ⟨c'.scene.withCurrent frame, c'.steps⟩) :
    Making past (Watch.within frame body) c result := by
  obtain ⟨inside, entered⟩ := made.withCurrent plain
  refine ensures_within.mpr (Ensures.mono (h inside) ?_ ?_)
  · intro a c' ⟨⟨made', onward⟩, hresult⟩
    have honward := entered.trans onward
    obtain ⟨behind, left⟩ := made'.withCurrent (made.scene.current.retains honward.retains)
    exact ⟨⟨behind, honward.trans left⟩, stable a c' _ hresult⟩
  · intro stop c' ⟨made', onward⟩
    have honward := entered.trans onward
    obtain ⟨behind, left⟩ := made'.withCurrent (made.scene.current.retains honward.retains)
    exact ⟨behind, honward.trans left⟩

end

end LoxLang
