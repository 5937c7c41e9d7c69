import LoxLang.Proofs.Evaluation.Pieces

/-!
# Frames of a run

The pieces of a run that make a frame, which starts with the variables that its record says, and
among them those that bind a method to an object.
-/

namespace LoxLang

variable {known : Site → Prop} {c : Chronicle} {α : Type}

theorem sound_of_bare {s : Scene} (v : Value) (h : v.Bare) : v.Sound known s := by
  cases v <;> first | exact trivial | exact h.elim

/-! ## New frames -/

/-- A machine with one frame more, which holds the given values. -/
structure Machine.Grown (outer : Option FrameId) (values : List Value) (m m' : Machine) : Prop where
  frames : m'.frames = m.frames.framed outer values
  bindings : m'.bindings = m.bindings
  current : m'.current = m.current
  objects : m'.objects = m.objects
  stored : ∀ v, m'.Stores v → m.Stores v ∨ v ∈ values

theorem Machine.Grown.calm {outer : Option FrameId} {values : List Value} {m m' m'' : Machine}
    (h : Machine.Grown outer values m m') (calm : Machine.Calm (fun _ => False) m' m'')
    (objects : m''.objects = m'.objects) : Machine.Grown outer values m m'' where
  frames := calm.frames.trans h.frames
  bindings := calm.bindings.trans h.bindings
  current := calm.current.trans h.current
  objects := objects.trans h.objects
  stored v hv := h.stored v ((calm.stored v hv).resolve_right id)

theorem grown_framed (m : Machine) (outer : Option FrameId) (values : List Value) :
    m.Grown outer values { m with frames := m.frames.framed outer values } where
  frames := rfl
  bindings := rfl
  current := rfl
  objects := rfl
  stored v hv := by
    cases hv with
    | global h => exact .inl (.global h)
    | slot h => exact (m.frames.mem_values_framed h).imp_left .slot
    | field h => exact .inl (.field h)
    | element h => exact .inl (.element h)

/-- A piece of a run that makes one frame. -/
def Framing (outer : Option FrameId) (values : List Value) (run : Run α) (m : Machine)
    (result : α → Prop) : Prop :=
  Ensures run m (fun a m' => m.Grown outer values m' ∧ result a)
    fun stop m' => m.Calm (fun _ => False) m' ∧ stop.Ordinary

theorem defineAll_eq (frame : FrameId) (values : List Value) (m : Machine) :
    Run.defineAll frame values m = .ok () { m with frames := m.frames.defineAll frame values } := by
  induction values generalizing m with
  | nil => rfl
  | cons value rest ih => exact ih { m with frames := m.frames.define frame value }

theorem framing_newFrame (outer : Option FrameId) (m : Machine) :
    Framing outer [] (Run.newFrame outer) m (· = m.frames.next) :=
  ⟨grown_framed m outer [], rfl⟩

theorem bind_eq (f : Closure) (receiver : Value) (m : Machine) :
    f.bind receiver m =
      .ok { f with frame := some m.frames.next }
        { m with frames := m.frames.framed f.frame [receiver] } :=
  rfl

theorem framing_bind (f : Closure) (receiver : Value) (m : Machine) :
    Framing f.frame [receiver] (f.bind receiver) m
      (· = { f with frame := some m.frames.next }) :=
  ⟨grown_framed m f.frame [receiver], rfl⟩

theorem framing_methodFrame (c : Class) (m : Machine) :
    Framing m.current [.classValue c] (methodFrame (some c)) m (· = some m.frames.next) :=
  ⟨grown_framed m m.current [.classValue c], rfl⟩

theorem callFrame_eq (f : Closure) (arguments : List Value) (m : Machine) :
    Evaluation.callFrame f arguments m =
      .ok m.frames.next { m with frames := m.frames.framed f.frame arguments } := by
  show EStateM.bind (Run.defineAll m.frames.next arguments) _ _ = _
  unfold EStateM.bind
  rw [defineAll_eq]
  rfl

theorem framing_callFrame (f : Closure) (arguments : List Value) (m : Machine) :
    Framing f.frame arguments (Evaluation.callFrame f arguments) m (· = m.frames.next) := by
  unfold Framing Ensures
  rw [callFrame_eq]
  exact ⟨grown_framed m f.frame arguments, rfl⟩

theorem getElem?_records_next {s : Scene} (recorded : s.Recorded) :
    s.records[s.machine.frames.next]? = none := by
  rw [Array.getElem?_eq_none_iff, recorded.size]
  exact Nat.le_refl _

theorem lt_size_of_record {s : Scene} (recorded : s.Recorded) {id : FrameId} {r : Record}
    (h : s.records[id]? = some r) : id < s.machine.frames.size := by
  rw [← recorded.size]
  exact (Array.getElem?_eq_some_iff.mp h).1

theorem getElem?_push_of_record {s : Scene} {id : FrameId} {r record : Record}
    (h : s.records[id]? = some r) : (s.records.push record)[id]? = some r := by
  have hlt := (Array.getElem?_eq_some_iff.mp h).1
  rw [Array.getElem?_push_lt hlt, ← Array.getElem?_eq_getElem hlt]
  exact h

theorem getElem?_push_next {s : Scene} (recorded : s.Recorded) (record : Record) :
    (s.records.push record)[s.machine.frames.next]? = some record := by
  have hnext : s.machine.frames.next = s.records.size := recorded.size.symm
  rw [hnext, Array.getElem?_push_size]

/-- The scene behind a new frame. -/
structure Scene.Framed (s : Scene) (record : Record) (outer : Option FrameId) (s' : Scene) :
    Prop where
  later : s.Later none s'
  new : s.records[s.machine.frames.next]? = none
  record : s'.records[s.machine.frames.next]? = some record
  outer : s'.machine.frames.outer? s.machine.frames.next = outer

theorem framed_of_grown {s : Scene} (recorded : s.Recorded) {record : Record}
    {outer : Option FrameId} {m : Machine} (h : s.machine.Grown outer record.values m) :
    s.Framed record outer ⟨m, s.records.push record⟩ where
  later :=
    { records := fun id r hr => ⟨r, getElem?_push_of_record hr, rfl, List.prefix_rfl, fun _ => rfl⟩
      outer := fun id r hr => by
        rw [h.frames]
        exact s.machine.frames.outer?_framed_of_lt _ _ (lt_size_of_record recorded hr)
      implicit := fun _ _ hr _ => getElem?_push_of_record hr
      current := h.current
      bindings := h.bindings }
  new := getElem?_records_next recorded
  record := getElem?_push_next recorded record
  outer := by
    rw [h.frames]
    exact s.machine.frames.outer?_framed_next _ _

theorem record_cases {s : Scene} (recorded : s.Recorded) {record r : Record} {id : FrameId}
    (hr : (s.records.push record)[id]? = some r) :
    s.records[id]? = some r ∨ id = s.machine.frames.next ∧ r = record := by
  rw [Array.getElem?_push] at hr
  split at hr
  · next hid =>
    cases hr
    exact .inr ⟨hid.trans recorded.size, rfl⟩
  · exact .inl hr

/-- What a new frame has to be so that the scene with it is sound: it holds the first variables of
its scope, one for a superclass holds a class, and it lies in a frame that there is. -/
structure Record.Suits (known : Site → Prop) (s : Scene) (record : Record)
    (outer : Option FrameId) : Prop where
  names : record.names <+: record.region.names
  values : ∀ v ∈ record.values, v.Sound known s
  superclass : record.region = .superclass → ∀ v ∈ record.values, ∃ c : Class, v = .classValue c
  outer : ∀ id, outer = some id → id < s.machine.frames.next

/-- A frame that matches a position is there. -/
theorem lt_next_of_matches {s : Scene} (recorded : s.Recorded) {frame : Option FrameId}
    {p : Position} (h : s.Matches frame p) :
    ∀ id, frame = some id → id < s.machine.frames.next := by
  rintro id rfl
  cases p with
  | nil => exact h.elim
  | cons layer outer =>
    obtain ⟨⟨r, hr, -⟩, -⟩ := h
    exact lt_size_of_record recorded hr

theorem sound_of_grown {s : Scene} (sound : s.Sound known) {record : Record}
    {outer : Option FrameId} {m : Machine} (h : s.machine.Grown outer record.values m)
    (suits : record.Suits known s outer) :
    Scene.Sound known ⟨m, s.records.push record⟩ where
  recorded := by
    obtain ⟨hsize, hvalues, hnames, houtward⟩ := sound.recorded
    -- Each condition on frames is that of an old frame or one of the new record.
    have hcases := @record_cases s sound.recorded record
    refine ⟨?_, ?_, ?_, ?_⟩
    · rw [h.frames, Frames.size_framed, Array.size_push, hsize]
    · intro id r hr
      rw [h.frames]
      rcases hcases hr with hr | ⟨rfl, rfl⟩
      · rw [Frames.values_framed_of_lt _ _ _ (lt_size_of_record sound.recorded hr)]
        exact hvalues id r hr
      · exact s.machine.frames.values_framed_next _ _
    · intro id r hr
      rcases hcases hr with hr | ⟨rfl, rfl⟩
      · exact hnames id r hr
      · exact suits.names
    · intro id r hr
      rw [h.frames]
      rcases hcases hr with hr | ⟨rfl, rfl⟩
      · rw [Frames.outer?_framed_of_lt _ _ _ (lt_size_of_record sound.recorded hr)]
        exact houtward id r hr
      · rw [Frames.outer?_framed_next]
        exact suits.outer
  agreed := by
    rw [h.bindings]
    exact sound.agreed
  stored v hv := by
    refine Value.Sound.keeps ?_ (framed_of_grown sound.recorded h).later.toKeeps
    rcases h.stored v hv with hv | hv
    · exact sound.stored v hv
    · exact suits.values v hv
  sheltered := sound.sheltered
  superclasses id r hr := by
    rcases record_cases sound.recorded hr with hr | ⟨-, rfl⟩
    · exact sound.superclasses id r hr
    · exact suits.superclass

theorem steady_framing {outer : Option FrameId} {run : Run α} {result : α → Prop}
    (sound : c.Sound known) (record : Record) (suits : record.Suits known c.scene outer)
    (h : Framing outer record.values run c.scene.machine result) :
    Steady known none (Watch.framing record run) c
      fun a s => result a ∧ c.scene.Framed record outer s := by
  unfold Framing Ensures at h
  unfold Steady Ensures Watch.framing Watch.settle
  cases hrun : run c.scene.machine with
  | ok a m =>
    rw [hrun] at h
    obtain ⟨grown, hresult⟩ := h
    have hsize : c.scene.machine.frames.size < m.frames.size := by
      rw [grown.frames, Frames.size_framed]
      exact Nat.lt_succ_self _
    simp only [hsize, if_true]
    have framed := framed_of_grown sound.scene.recorded grown
    exact ⟨⟨sound_of_grown sound.scene grown suits, sound.steps⟩, framed.later, hresult, framed⟩
  | error stop m =>
    rw [hrun] at h
    obtain ⟨calm, ordinary⟩ := h
    have hsize : ¬c.scene.machine.frames.size < m.frames.size := by
      rw [calm.frames]
      exact Nat.lt_irrefl _
    simp only [hsize, if_false]
    have calm' : c.scene.machine.Calm (·.Sound known c.scene) m := calm.mono fun _ => False.elim
    exact ⟨.elsewhere ⟨sound_of_calm sound.scene calm', sound.steps⟩ ordinary,
      (later_of_calm calm).toStays⟩

/-- What could have made a frame but has not. -/
theorem steady_framing_quiet {record : Record} {run : Run α} {result : α → Prop}
    (sound : c.Sound known) (h : Quiet (·.Sound known c.scene) run c.scene.machine result) :
    Steady known none (Watch.framing record run) c fun a _ => result a := by
  have hquietly := steady_quietly sound h
  unfold Quiet Ensures at h
  unfold Steady Ensures Watch.framing Watch.settle at *
  unfold Watch.quietly Watch.settle at hquietly
  cases hrun : run c.scene.machine with
  | ok a m =>
    rw [hrun] at h hquietly
    have hsize : ¬c.scene.machine.frames.size < m.frames.size := by
      rw [h.1.frames]
      exact Nat.lt_irrefl _
    simp only [hsize, if_false]
    exact hquietly
  | error stop m =>
    rw [hrun] at h hquietly
    have hsize : ¬c.scene.machine.frames.size < m.frames.size := by
      rw [h.1.frames]
      exact Nat.lt_irrefl _
    simp only [hsize, if_false]
    exact hquietly

/-- Only what a piece does to the present machine matters. -/
theorem framing_congr {record : Record} {run run' : Run α}
    (h : run c.scene.machine = run' c.scene.machine) :
    Watch.framing record run c = Watch.framing record run' c := by
  unfold Watch.framing
  rw [h]

/-! ## Methods and their objects -/

/-- A method bound to an object in a frame of its own. -/
theorem Closure.SoundMethod.bound {s s' : Scene} {f : Closure} (h : f.SoundMethod known s)
    {receiver : Value} (framed : s.Framed (Watch.receiverRecord receiver) f.frame s') :
    Closure.Sound known s' { f with frame := some s.machine.frames.next } := by
  obtain ⟨p, hmatches, formed, code, sites⟩ := h
  refine ⟨p.enter .receiver [thisName], ⟨⟨_, framed.record, rfl, List.prefix_rfl⟩, ?_⟩, formed,
    code, sites, fun _ => ⟨p, rfl⟩⟩
  rw [framed.outer]
  exact hmatches.keeps framed.later.toKeeps

/-- The frame that binds a method to an object. -/
theorem Closure.SoundMethod.suits {s : Scene} {method : Closure} (h : method.SoundMethod known s)
    (recorded : s.Recorded) {receiver : Value} (hreceiver : receiver.Sound known s) :
    (Watch.receiverRecord receiver).Suits known s method.frame where
  names := List.prefix_rfl
  values := by simpa [Watch.receiverRecord, Record.values] using hreceiver
  superclass := nofun
  outer := by
    obtain ⟨p, hmatches, -⟩ := h
    exact lt_next_of_matches recorded hmatches

theorem steady_bind {method : Closure} {receiver : Value} (sound : c.Sound known)
    (hmethod : method.SoundMethod known c.scene) (hreceiver : receiver.Sound known c.scene) :
    Steady known none (Watch.framing (Watch.receiverRecord receiver) (method.bind receiver)) c
      fun f s => f.function = method.function ∧ f.Sound known s := by
  have hsteady := steady_framing sound (Watch.receiverRecord receiver)
    (hmethod.suits sound.scene.recorded hreceiver) (framing_bind method receiver c.scene.machine)
  refine hsteady.mono ?_
  rintro f s _ ⟨rfl, framed⟩
  exact ⟨rfl, hmethod.bound framed⟩

/-- What comes of the search for a method of an object: the method in a new frame, which holds just
the object and lies in the frame of the method, or a failure. -/
def boundResult (found : Option Closure) (object : Value) (name : Name) (m : Machine) :
    EStateM.Result Stop Machine Value :=
  match found with
  | none => .error (.failed name.line (.undefinedProperty name.text)) m
  | some method =>
    .ok (.function m.identities { method with frame := some m.frames.next })
      { m with
        frames := m.frames.framed method.frame [object]
        identities := m.identities + 1 }

theorem bindFound_eq (found : Option Closure) (object : Value) (name : Name) (m : Machine) :
    bindFound found object name m = boundResult found object name m := by
  cases found <;> rfl

theorem framing_bindFound (method : Closure) (receiver : Value) (name : Name) (m : Machine) :
    Framing method.frame [receiver] (bindFound (some method) receiver name) m
      fun v => ∃ id, v = .function id { method with frame := some m.frames.next } :=
  ⟨(grown_framed m method.frame [receiver]).calm (calm_same rfl rfl rfl rfl rfl rfl) rfl,
    m.identities, rfl⟩

theorem steady_bindFound {found : Option Closure} {receiver : Value} (name : Name)
    (sound : c.Sound known) (hfound : ∀ f, found = some f → f.SoundMethod known c.scene)
    (hreceiver : receiver.Sound known c.scene) :
    Steady known none
      (Watch.framing (Watch.receiverRecord receiver) (bindFound found receiver name)) c
      fun v s => v.Sound known s := by
  cases found with
  | none =>
    have hfail : Quiet (·.Sound known c.scene) (bindFound none receiver name) c.scene.machine
        fun _ => False := quiet_fail rfl
    exact (steady_framing_quiet sound hfail).mono fun _ _ _ h => h.elim
  | some method =>
    have hsteady := steady_framing sound (Watch.receiverRecord receiver)
      ((hfound method rfl).suits sound.scene.recorded hreceiver)
      (framing_bindFound method receiver name c.scene.machine)
    refine hsteady.mono ?_
    rintro v s _ ⟨⟨id, rfl⟩, framed⟩
    exact (hfound method rfl).bound framed

/-- A property of an object is a field if it has one of the name, and otherwise what its class has
for objects of its kind, bound to it. -/
theorem property_of_object {object : Value} {id : ObjectId} {k : Class} {kind : Kind}
    (hobject : object.object? = some (id, k, kind)) (name : Name) (m : Machine) :
    property object name m =
      match (m.objects.getD id Dictionary.empty).get? name.text with
      | some v => .ok v m
      | none => bindFound (k.find? kind name.text) object name m := by
  cases object with
  | instanceOf found type =>
    cases hobject
    unfold property
    simp only [bind, EStateM.bind, Run.field?]
    cases (m.objects.getD id Dictionary.empty).get? name.text <;> rfl
  | classValue type =>
    cases hobject
    unfold property
    simp only [bind, EStateM.bind, Run.field?]
    cases (m.objects.getD k.id Dictionary.empty).get? name.text <;> rfl
  | _ => cases hobject

/-- A property of an object is the value of one of its fields, or a method that is bound to it. -/
theorem stored_or_bound {object : Value} {id : ObjectId} {k : Class} {kind : Kind}
    (hobject : object.object? = some (id, k, kind)) (name : Name) (m : Machine) :
    (∃ v, m.Stores v ∧ property object name m = (pure v : Run Value) m) ∨
      property object name m = bindFound (k.find? kind name.text) object name m := by
  rw [property_of_object hobject]
  cases hfield : (m.objects.getD id Dictionary.empty).get? name.text with
  | some v => exact .inl ⟨v, .field hfield, rfl⟩
  | none => exact .inr rfl

/-- A property of what is no object has no closures. -/
theorem quiet_property {good : Value → Prop} (bare : ∀ v : Value, v.Bare → good v) {object : Value}
    (hobject : object.object? = none) (name : Name) (m : Machine) :
    Quiet good (property object name) m good := by
  cases object with
  | instanceOf id type => cases hobject
  | classValue k => cases hobject
  | array id =>
    show Quiet _ (arrayProperty id name) m _
    unfold arrayProperty
    split
    · exact (quiet_arrayLength id).bind fun _ _ _ _ => quiet_pure (bare _ trivial)
    · split
      · exact quiet_pure (bare _ trivial)
      · split
        · exact quiet_pure (bare _ trivial)
        · exact quiet_fail rfl
  | _ => exact quiet_fail rfl

theorem steady_property {object : Value} (name : Name) (sound : c.Sound known)
    (hsound : object.Sound known c.scene) :
    Steady known none (Watch.framing (Watch.receiverRecord object) (property object name)) c
      fun v s => v.Sound known s := by
  cases hobject : object.object? with
  | none =>
    exact (steady_framing_quiet sound (quiet_property sound_of_bare hobject name _)).mono
      fun _ _ later hv => hv.keeps later.toKeeps
  | some found =>
    obtain ⟨id, k, kind⟩ := found
    unfold Steady Ensures
    rcases stored_or_bound hobject name c.scene.machine with ⟨v, hstored, hrun⟩ | hrun
    · rw [framing_congr hrun]
      have hv : v.Sound known c.scene := sound.scene.stored v hstored
      exact (steady_framing_quiet sound (quiet_pure hv)).mono
        fun _ _ later hv => hv.keeps later.toKeeps
    · rw [framing_congr hrun]
      exact steady_bindFound name sound (fun f hf => (hsound.class hobject).find hf) hsound

end LoxLang
