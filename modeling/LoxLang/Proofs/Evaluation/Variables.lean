import LoxLang.Proofs.Evaluation.Framing

/-!
# Variables of a run

The pieces of a run that look for a variable, assign to one or declare one: a variable that is
there is the one that the text says, and a declaration adds the next variable of the scope.
-/

namespace LoxLang

variable {known : Site → Prop} {c : Chronicle} {α : Type}

/-! ## Reading -/

/-- Where a known occurrence denotes a local variable there is a current frame. -/
theorem Scene.At.current {s : Scene} {p : Position} (here : s.At p) (sound : s.Sound known)
    {moment : Moment} (site : known ⟨p, moment⟩) {ref : Reference}
    (href : moment.reference? = some ref) {b : Binding}
    (hb : s.machine.bindings[ref.id]? = some b) : ∃ id, s.machine.current = some id := by
  rw [sound.agreed ⟨p, moment⟩ site ref href] at hb
  cases p with
  | nil => simp [Position.lookup?] at hb
  | cons layer outer =>
    have hreached := here.reached
    cases hid : s.machine.current with
    | none =>
      rw [hid] at hreached
      exact hreached.elim
    | some id => exact ⟨id, rfl⟩

/-- The variable of a known occurrence is in the frame of the scope that the text says. -/
theorem Scene.At.outward {s : Scene} {p : Position} (here : s.At p) (sound : s.Sound known)
    {moment : Moment} (site : known ⟨p, moment⟩) {ref : Reference}
    (href : moment.reference? = some ref) {b : Binding} (hb : s.machine.bindings[ref.id]? = some b)
    {id : FrameId} (hid : s.machine.current = some id) :
    ∃ layer frame r, p[b.depth]? = some layer ∧
      layer.begun[b.slot]? = some ref.name.text ∧
      s.machine.frames.outward? id b.depth = some frame ∧ s.records[frame]? = some r ∧
      r.region = layer.region ∧ layer.declared <+: r.names := by
  rw [sound.agreed ⟨p, moment⟩ site ref href] at hb
  obtain ⟨⟨layer, hlayer, hslot⟩, -⟩ := Position.lookup?_eq_some hb
  have hreached := here.reached
  rw [hid] at hreached
  obtain ⟨frame, r, hframe, hr, hregion, hnames⟩ := hreached.outward hlayer
  exact ⟨layer, frame, r, hlayer, hslot, hframe, hr, hregion, hnames⟩

/-- A step whose variable is missing is the last one. -/
theorem stopped_of_error {moment : Moment} {p : Position} (sound : c.Sound known)
    (site : moment.Known known p) (formed : p.Formed) (here : c.scene.At p) {ref : Reference}
    (href : moment.reference? = some ref) {b : Binding}
    (hb : c.scene.machine.bindings[ref.id]? = some b) {id : FrameId}
    (hid : c.scene.machine.current = some id) {fault : FrameFault}
    (hfault : c.scene.machine.frames.holder id b.depth b.slot = .error fault) (line : Nat) :
    Chronicle.Stopped known (.failed line (.frame fault))
      ⟨c.scene, ⟨moment, c.scene⟩ :: c.steps⟩ := by
  obtain ⟨layer, frame, r, -, -, hframe, -⟩ := here.outward sound.scene site.site href hb hid
  obtain ⟨-, rfl⟩ := (Frames.holder_eq_error _ hframe).mp hfault
  have hgood : Step.Good known ⟨moment, c.scene⟩ := ⟨p, site, formed, here, sound.scene⟩
  exact .missing sound hgood ⟨ref, b, id, href, hb, hid, hfault⟩

theorem found_of_holder {m : Machine} {id : RefId} {b : Binding} {frame holder : FrameId}
    (hb : m.bindings[id]? = some b) (hframe : m.current = some frame)
    (hholder : m.frames.holder frame b.depth b.slot = .ok holder) :
    ∀ b' frame', m.bindings[id]? = some b' → m.current = some frame' →
      ∃ holder, m.frames.holder frame' b'.depth b'.slot = .ok holder := by
  intro b' frame' hb' hframe'
  cases hb.symm.trans hb'
  cases hframe.symm.trans hframe'
  exact ⟨holder, hholder⟩

/-- A step whose variable is there, or is a global. -/
theorem Chronicle.Sound.mark_found {moment : Moment} {p : Position} (sound : c.Sound known)
    (site : moment.Known known p) (formed : p.Formed) (here : c.scene.At p) {ref : Reference}
    (href : moment.reference? = some ref)
    (found : ∀ b id, c.scene.machine.bindings[ref.id]? = some b →
      c.scene.machine.current = some id →
      ∃ frame, c.scene.machine.frames.holder id b.depth b.slot = .ok frame) :
    Chronicle.Sound known ⟨c.scene, ⟨moment, c.scene⟩ :: c.steps⟩ where
  scene := sound.scene
  steps step hstep := by
    rcases List.mem_cons.mp hstep with rfl | hstep
    · refine ⟨⟨p, site, formed, here, sound.scene⟩, ?_⟩
      rintro slot ⟨other, b, id, hother, hb, hid, hfault⟩
      rw [href, Option.some.injEq] at hother
      rw [← hother] at hb
      obtain ⟨frame, hframe⟩ := found b id hb hid
      rw [hframe] at hfault
      cases hfault
    · exact sound.steps step hstep

theorem steady_marked {growing : Option FrameId} {watch : Watch α} {moment : Moment}
    {result : α → Scene → Prop}
    (h : Steady known growing watch ⟨c.scene, ⟨moment, c.scene⟩ :: c.steps⟩ result) :
    Steady known growing (Watch.mark moment >>= fun _ => watch) c result :=
  h

/-- An occurrence denotes a local variable that is there, one that is missing, or a global. -/
theorem local_or_global (m : Machine) (id : RefId) :
    (∃ b frame holder, m.bindings[id]? = some b ∧ m.current = some frame ∧
        m.frames.holder frame b.depth b.slot = .ok holder) ∨
      (∃ b frame fault, m.bindings[id]? = some b ∧ m.current = some frame ∧
        m.frames.holder frame b.depth b.slot = .error fault) ∨
      ∀ b frame, m.bindings[id]? = some b → m.current = some frame → False := by
  cases hb : m.bindings[id]? with
  | none => exact .inr (.inr (by simp))
  | some b =>
    cases hframe : m.current with
    | none => exact .inr (.inr (by simp))
    | some frame =>
      cases hholder : m.frames.holder frame b.depth b.slot with
      | ok holder => exact .inl ⟨b, frame, holder, rfl, rfl, hholder⟩
      | error fault => exact .inr (.inl ⟨b, frame, fault, rfl, rfl, hholder⟩)

theorem lookUp_global {m : Machine} {id : RefId}
    (h : ∀ b frame, m.bindings[id]? = some b → m.current = some frame → False) (name : String)
    (line : Nat) : Run.lookUp id name line m =
      match m.globals.get? name with
      | some value => .ok value m
      | none => .error (.failed line (.undefinedVariable name)) m := by
  unfold Run.lookUp
  split
  · next b frame hb hframe => exact (h b frame hb hframe).elim
  · rfl

theorem lookUp_local {m : Machine} {id : RefId} {b : Binding} {frame : FrameId}
    (hb : m.bindings[id]? = some b) (hframe : m.current = some frame) (name : String)
    (line : Nat) : Run.lookUp id name line m = slotValue frame b.depth b.slot line m := by
  unfold Run.lookUp slotValue
  cases hget : m.frames.get frame b.depth b.slot with
  | ok value => simp only [hb, hframe, hget]
  | error fault => simp only [hb, hframe, hget]

/-- A variable is read where it is evaluated. -/
theorem steady_lookUp {moment : Moment} {p : Position} (sound : c.Sound known)
    (site : moment.Known known p) (formed : p.Formed) (here : c.scene.At p) {ref : Reference}
    (href : moment.reference? = some ref) (named : ref.name.text ≠ placeholderName) (line : Nat) :
    Steady known none
      (Watch.mark moment >>= fun _ => Watch.quietly (Run.lookUp ref.id ref.name.text line)) c
      fun v s => v.Sound known s := by
  refine steady_marked ?_
  rcases local_or_global c.scene.machine ref.id with
    ⟨b, id, holder, hb, hid, hholder⟩ | ⟨b, id, fault, hb, hid, hfault⟩ | hglobal
  · have sound' := sound.mark_found site formed here href (found_of_holder hb hid hholder)
    have hquiet : Quiet (·.Sound known c.scene) (Run.lookUp ref.id ref.name.text line)
        c.scene.machine (·.Sound known c.scene) := by
      unfold Quiet Ensures
      rw [lookUp_local hb hid]
      exact quiet_slotValue sound.scene.stored hholder
    exact steady_value sound' hquiet
  · unfold Steady Ensures Watch.quietly Watch.settle
    simp only
    rw [lookUp_local hb hid, slotValue, Frames.get_eq_error _ hfault]
    -- Nothing is in the slot yet, and the run stops at the step that has just been marked.
    exact ⟨stopped_of_error sound site formed here href hb hid hfault line, .refl c.scene⟩
  · have sound' := sound.mark_found site formed here href fun b id hb hid =>
      (hglobal b id hb hid).elim
    have hquiet : Quiet (·.Sound known c.scene) (Run.lookUp ref.id ref.name.text line)
        c.scene.machine (·.Sound known c.scene) := by
      unfold Quiet Ensures
      rw [lookUp_global hglobal]
      cases hvalue : c.scene.machine.globals.get? ref.name.text with
      | some v => exact ⟨.refl _ _, sound.scene.stored v (.global hvalue)⟩
      | none =>
        refine ⟨.refl _ _, ?_⟩
        rintro _ _ ⟨⟩
        exact FailureCause.ordinary_undefinedVariable named
    exact steady_value sound' hquiet

/-! ## Changes of records -/

/-- A frame that is that of a block or a call. -/
def Scene.Explicit (s : Scene) (id : FrameId) : Prop :=
  ∀ r, s.records[id]? = some r → ¬r.region.Implicit

section

variable {s : Scene} {change : Record → Record} {id : FrameId} {frames : Frames}

theorem getElem?_modified {other : FrameId} {r : Record}
    (h : (s.records.modify id change)[other]? = some r) :
    ∃ r₀, s.records[other]? = some r₀ ∧ r = if id = other then change r₀ else r₀ := by
  rw [Array.getElem?_modify] at h
  split at h
  · next hid =>
    obtain ⟨r₀, hr₀, rfl⟩ := Option.map_eq_some_iff.mp h
    exact ⟨r₀, hr₀, by rw [if_pos hid]⟩
  · next hid => exact ⟨r, h, by rw [if_neg hid]⟩

theorem getElem?_modify_of_record (id : FrameId) (change : Record → Record) {other : FrameId}
    {r : Record} (h : s.records[other]? = some r) :
    (s.records.modify id change)[other]? = some (if id = other then change r else r) := by
  rw [Array.getElem?_modify, h]
  split <;> rfl

/-- A change of one frame and its record, in what they hold only. -/
theorem keeps_modified {m : Machine} {growing : Option FrameId} (recorded : s.Recorded)
    (explicit : s.Explicit id) (region : ∀ r, (change r).region = r.region)
    (names : ∀ r, r.names <+: (change r).names)
    (same : some id ≠ growing → ∀ r, (change r).names = r.names)
    (outer : ∀ other < s.machine.frames.size,
      m.frames.outer? other = s.machine.frames.outer? other) :
    s.Keeps growing ⟨m, s.records.modify id change⟩ where
  records other r hr := by
    refine ⟨_, getElem?_modify_of_record id change hr, ?_⟩
    split
    · next hid =>
      subst hid
      exact ⟨region r, names r, fun hne => same hne r⟩
    · exact ⟨rfl, List.prefix_rfl, fun _ => rfl⟩
  outer other r hr := outer other (lt_size_of_record recorded hr)
  implicit other r hr himplicit := by
    have hne : id ≠ other := by
      rintro rfl
      exact explicit r hr himplicit
    show (s.records.modify id change)[other]? = some r
    rw [getElem?_modify_of_record id change hr, if_neg hne]

/-- A frame of a superclass holds what it has held. -/
theorem superclasses_modified (sound : s.Sound known) (explicit : s.Explicit id)
    (region : ∀ r, (change r).region = r.region) (other : FrameId) (r : Record)
    (hr : (s.records.modify id change)[other]? = some r) (hregion : r.region = .superclass) :
    ∀ v ∈ r.values, ∃ c : Class, v = .classValue c := by
  obtain ⟨r₀, hr₀, rfl⟩ := getElem?_modified hr
  by_cases hid : id = other
  · subst hid
    rw [if_pos rfl, region] at hregion
    exact (explicit r₀ hr₀ (by rw [hregion]; trivial)).elim
  · rw [if_neg hid] at hregion ⊢
    exact sound.superclasses other r₀ hr₀ hregion

end

/-- The scene behind an assignment to a local variable. -/
def Scene.assigned (s : Scene) (id : FrameId) (slot : Nat) (value : Value) : Scene :=
  ⟨{ s.machine with frames := s.machine.frames.replace id slot value },
    s.records.modify id (·.assign slot value)⟩

theorem later_assigned {s : Scene} (recorded : s.Recorded) {id : FrameId}
    (explicit : s.Explicit id) (slot : Nat) (value : Value) :
    s.Later none (s.assigned id slot value) where
  toKeeps := by
    refine keeps_modified recorded explicit (fun _ => rfl) ?_ ?_ ?_
    · exact fun r => r.names_assign slot value ▸ List.prefix_rfl
    · intro _ r
      rw [Record.names_assign]
    · exact fun other h => s.machine.frames.outer?_replace id other slot value h
  current := rfl
  bindings := rfl

theorem stores_assigned {s : Scene} {id : FrameId} {slot : Nat} {value v : Value}
    (hv : (s.assigned id slot value).machine.Stores v) : s.machine.Stores v ∨ v = value := by
  cases hv with
  | global h => exact .inl (.global h)
  | slot h => exact (Frames.mem_values_replace _ h).imp_left .slot
  | field h => exact .inl (.field h)
  | element h => exact .inl (.element h)

theorem sound_assigned {s : Scene} (sound : s.Sound known) {id : FrameId}
    (explicit : s.Explicit id) (slot : Nat) {value : Value} (h : value.Sound known s) :
    (s.assigned id slot value).Sound known where
  recorded := by
    obtain ⟨hsize, hvalues, hnames, houtward⟩ := sound.recorded
    refine ⟨?_, ?_, ?_, ?_⟩
    · show (s.records.modify id _).size = (s.machine.frames.replace id slot value).size
      rw [Array.size_modify, Frames.size_replace, hsize]
    · intro other r hr
      obtain ⟨r₀, hr₀, rfl⟩ := getElem?_modified hr
      show ((s.machine.frames.replace id slot value).values other).toList = _
      rw [Frames.values_replace _ _ _ _ _ (lt_size_of_record sound.recorded hr₀)]
      split
      · rw [Array.toList_setIfInBounds, hvalues other r₀ hr₀, Record.values_assign]
      · exact hvalues other r₀ hr₀
    · intro other r hr
      obtain ⟨r₀, hr₀, rfl⟩ := getElem?_modified hr
      split
      · rw [Record.names_assign, Record.region_assign]
        exact hnames other r₀ hr₀
      · exact hnames other r₀ hr₀
    · intro other r hr
      obtain ⟨r₀, hr₀, -⟩ := getElem?_modified hr
      show ∀ outer, (s.machine.frames.replace id slot value).outer? other = some outer → _
      rw [Frames.outer?_replace _ _ _ _ _ (lt_size_of_record sound.recorded hr₀)]
      exact houtward other r₀ hr₀
  agreed := sound.agreed
  stored v hv := by
    refine Value.Sound.keeps ?_ (later_assigned sound.recorded explicit slot value).toKeeps
    rcases stores_assigned hv with hv | rfl
    · exact sound.stored v hv
    · exact h
  sheltered := sound.sheltered
  superclasses := superclasses_modified sound explicit (fun _ => rfl)

/-- The scene behind the declaration of a local variable. -/
def Scene.declared (s : Scene) (id : FrameId) (name : String) (value : Value) : Scene :=
  ⟨{ s.machine with frames := s.machine.frames.define id value },
    s.records.modify id (·.declare name value)⟩

theorem later_declared {s : Scene} (recorded : s.Recorded) {id : FrameId}
    (explicit : s.Explicit id) (name : String) (value : Value) :
    s.Later (some id) (s.declared id name value) where
  toKeeps := by
    refine keeps_modified recorded explicit (fun _ => rfl) ?_ (fun h => absurd rfl h) ?_
    · intro r
      rw [Record.names_declare]
      exact List.prefix_append r.names [name]
    · exact fun other h => s.machine.frames.outer?_define id other value h
  current := rfl
  bindings := rfl

theorem stores_declared {s : Scene} {id : FrameId} {name : String} {value v : Value}
    (hv : (s.declared id name value).machine.Stores v) : s.machine.Stores v ∨ v = value := by
  cases hv with
  | global h => exact .inl (.global h)
  | slot h => exact (Frames.mem_values_define _ h).imp_left .slot
  | field h => exact .inl (.field h)
  | element h => exact .inl (.element h)

theorem sound_declared {s : Scene} (sound : s.Sound known) {id : FrameId}
    (explicit : s.Explicit id) {name : String} {value : Value}
    (room : ∀ r, s.records[id]? = some r → r.names ++ [name] <+: r.region.names)
    (h : value.Sound known (s.declared id name value)) :
    (s.declared id name value).Sound known where
  recorded := by
    obtain ⟨hsize, hvalues, hnames, houtward⟩ := sound.recorded
    refine ⟨?_, ?_, ?_, ?_⟩
    · show (s.records.modify id _).size = (s.machine.frames.define id value).size
      rw [Array.size_modify, Frames.size_define, hsize]
    · intro other r hr
      obtain ⟨r₀, hr₀, rfl⟩ := getElem?_modified hr
      show ((s.machine.frames.define id value).values other).toList = _
      rw [Frames.values_define _ _ _ _ (lt_size_of_record sound.recorded hr₀)]
      split
      · rw [Array.toList_push, hvalues other r₀ hr₀, Record.values_declare]
      · exact hvalues other r₀ hr₀
    · intro other r hr
      obtain ⟨r₀, hr₀, rfl⟩ := getElem?_modified hr
      split
      · next hid =>
        subst hid
        rw [Record.names_declare, Record.region_declare]
        exact room r₀ hr₀
      · exact hnames other r₀ hr₀
    · intro other r hr
      obtain ⟨r₀, hr₀, -⟩ := getElem?_modified hr
      show ∀ outer, (s.machine.frames.define id value).outer? other = some outer → _
      rw [Frames.outer?_define _ _ _ _ (lt_size_of_record sound.recorded hr₀)]
      exact houtward other r₀ hr₀
  agreed := sound.agreed
  stored v hv := by
    rcases stores_declared hv with hv | rfl
    · exact (sound.stored v hv).keeps (later_declared sound.recorded explicit name value).toKeeps
    · exact h
  sheltered := sound.sheltered
  superclasses := superclasses_modified sound explicit (fun _ => rfl)

/-- The scene behind a change of a global. -/
def Scene.withGlobal (s : Scene) (name : String) (value : Value) : Scene :=
  ⟨{ s.machine with globals := s.machine.globals.insert name value }, s.records⟩

theorem later_withGlobal (s : Scene) (name : String) (value : Value) :
    s.Later none (s.withGlobal name value) :=
  ⟨⟨fun _ r hr => ⟨r, hr, rfl, List.prefix_rfl, fun _ => rfl⟩, fun _ _ _ => rfl,
    fun _ _ hr _ => hr⟩, ⟨rfl, rfl⟩⟩

theorem stores_withGlobal {s : Scene} {name : String} {value v : Value}
    (hv : (s.withGlobal name value).machine.Stores v) : s.machine.Stores v ∨ v = value := by
  cases hv with
  | global h =>
    unfold Scene.withGlobal at h
    rw [Dictionary.get?_insert] at h
    split at h
    · cases h
      exact .inr rfl
    · exact .inl (.global h)
  | slot h => exact .inl (.slot h)
  | field h => exact .inl (.field h)
  | element h => exact .inl (.element h)

/-- A machine with another value for a global. -/
theorem sound_withGlobal {s : Scene} (sound : s.Sound known) (name : String) {value : Value}
    (h : value.Sound known s) : (s.withGlobal name value).Sound known where
  recorded := ⟨sound.recorded.size, sound.recorded.values, sound.recorded.names,
    sound.recorded.outward⟩
  agreed := sound.agreed
  stored v hv := by
    refine Value.Sound.keeps ?_ (later_withGlobal s name value).toKeeps
    rcases stores_withGlobal hv with hv | rfl
    · exact sound.stored v hv
    · exact h
  sheltered := sound.sheltered
  superclasses := sound.superclasses

/-! ## Assignments and declarations -/

section

variable {m : Machine} {ref : Reference} {value : Value}

theorem Run.assign_local {b : Binding} {id holder : FrameId}
    (hb : m.bindings[ref.id]? = some b) (hid : m.current = some id)
    (hholder : m.frames.holder id b.depth b.slot = .ok holder) :
    Run.assign ref.id ref.name.text ref.name.line value m =
      .ok () { m with frames := m.frames.replace holder b.slot value } := by
  unfold Run.assign
  simp only [hb, hid, hholder]

theorem Run.assign_missing {b : Binding} {id : FrameId} {fault : FrameFault}
    (hb : m.bindings[ref.id]? = some b) (hid : m.current = some id)
    (hfault : m.frames.holder id b.depth b.slot = .error fault) :
    Run.assign ref.id ref.name.text ref.name.line value m =
      .error (.failed ref.name.line (.frame fault)) m := by
  unfold Run.assign
  simp only [hb, hid, hfault]

theorem Run.assign_global
    (h : ∀ b frame, m.bindings[ref.id]? = some b → m.current = some frame → False) :
    Run.assign ref.id ref.name.text ref.name.line value m =
      if m.globals.contains ref.name.text then
        .ok () { m with globals := m.globals.insert ref.name.text value }
      else .error (.failed ref.name.line (.undefinedVariable ref.name.text)) m := by
  unfold Run.assign
  split
  · next b frame hb hframe => exact (h b frame hb hframe).elim
  · rfl

end

section

variable {s : Scene} {steps : List Step} {ref : Reference} {value : Value} {name : String}

theorem assign_local {b : Binding} {id holder : FrameId}
    (hb : s.machine.bindings[ref.id]? = some b) (hid : s.machine.current = some id)
    (hholder : s.machine.frames.holder id b.depth b.slot = .ok holder) :
    Watch.assign ref value ⟨s, steps⟩ = .ok () ⟨s.assigned holder b.slot value, steps⟩ := by
  have htarget : Watch.target? s.machine ref.id = some (holder, b.slot) := by
    unfold Watch.target?
    simp only [hb, hid, hholder]
  unfold Watch.assign
  rw [htarget, Run.assign_local hb hid hholder]
  rfl

theorem assign_missing {b : Binding} {id : FrameId} {fault : FrameFault}
    (hb : s.machine.bindings[ref.id]? = some b) (hid : s.machine.current = some id)
    (hfault : s.machine.frames.holder id b.depth b.slot = .error fault) :
    Watch.assign ref value ⟨s, steps⟩ =
      .error (.failed ref.name.line (.frame fault)) ⟨s, steps⟩ := by
  have htarget : Watch.target? s.machine ref.id = none := by
    unfold Watch.target?
    simp only [hb, hid, hfault]
  unfold Watch.assign
  rw [htarget, Run.assign_missing hb hid hfault]
  rfl

theorem assign_global
    (h : ∀ b frame, s.machine.bindings[ref.id]? = some b → s.machine.current = some frame → False) :
    Watch.assign ref value ⟨s, steps⟩ =
      if s.machine.globals.contains ref.name.text then
        .ok () ⟨s.withGlobal ref.name.text value, steps⟩
      else .error (.failed ref.name.line (.undefinedVariable ref.name.text)) ⟨s, steps⟩ := by
  have htarget : Watch.target? s.machine ref.id = none := by
    unfold Watch.target?
    split
    · next b frame hb hframe => exact (h b frame hb hframe).elim
    · rfl
  unfold Watch.assign
  rw [htarget, Run.assign_global h]
  cases s.machine.globals.contains ref.name.text <;> rfl

theorem declare_local {id : FrameId} (hid : s.machine.current = some id) :
    Watch.declare name value ⟨s, steps⟩ = .ok () ⟨s.declared id name value, steps⟩ := by
  have hrun : Run.declare name value s.machine =
      .ok () { s.machine with frames := s.machine.frames.define id value } := by
    unfold Run.declare
    simp only [hid]
  unfold Watch.declare
  rw [hrun]
  unfold Watch.settle Scene.declared
  simp only [hid]

theorem declare_global (hid : s.machine.current = none) :
    Watch.declare name value ⟨s, steps⟩ = .ok () ⟨s.withGlobal name value, steps⟩ := by
  have hrun : Run.declare name value s.machine =
      .ok () { s.machine with globals := s.machine.globals.insert name value } := by
    unfold Run.declare
    simp only [hid]
  unfold Watch.declare
  rw [hrun]
  unfold Watch.settle Scene.withGlobal
  simp only [hid]

end

/-- The frame of a variable with a plain name is that of a block or a call. -/
theorem Scene.At.explicit {s : Scene} {p : Position} (here : s.At p) (sound : s.Sound known)
    (formed : p.Formed) {moment : Moment} (site : known ⟨p, moment⟩) {ref : Reference}
    (plain : ref.Plain) (href : moment.reference? = some ref) {b : Binding}
    (hb : s.machine.bindings[ref.id]? = some b) {id : FrameId}
    (hid : s.machine.current = some id) {holder : FrameId}
    (hholder : s.machine.frames.holder id b.depth b.slot = .ok holder) : s.Explicit holder := by
  intro r hr
  obtain ⟨layer, frame, found, hlayer, hslot, hframe, hfound, hregion, -⟩ :=
    here.outward sound site href hb hid
  obtain ⟨hreach, -⟩ := (Frames.holder_eq_ok _).mp hholder
  rw [hreach, Option.some.injEq] at hframe
  rw [← hframe, hr, Option.some.injEq] at hfound
  rw [hfound, hregion]
  refine Region.not_implicit ?_ plain.explicit
  exact (formed.begun layer (List.mem_of_getElem? hlayer)).subset (List.mem_of_getElem? hslot)

/-- The value of an assignment is stored where the text says. -/
theorem steady_assign {p : Position} {ref : Reference} {value : Value} (sound : c.Sound known)
    (site : Moment.Known known p (.storing ref)) (formed : p.Formed) (here : c.scene.At p)
    (plain : ref.Plain) (hvalue : value.Sound known c.scene) :
    Steady known none (Watch.mark (.storing ref) >>= fun _ => Watch.assign ref value) c
      fun _ _ => True := by
  refine steady_marked ?_
  unfold Steady Ensures
  rcases local_or_global c.scene.machine ref.id with
    ⟨b, id, holder, hb, hid, hholder⟩ | ⟨b, id, fault, hb, hid, hfault⟩ | hglobal
  · have sound' := sound.mark_found site formed here rfl (found_of_holder hb hid hholder)
    have explicit := here.explicit sound.scene formed site.site plain rfl hb hid hholder
    rw [assign_local hb hid hholder]
    exact ⟨⟨sound_assigned sound.scene explicit b.slot hvalue, sound'.steps⟩,
      later_assigned sound.scene.recorded explicit b.slot value, trivial⟩
  · rw [assign_missing hb hid hfault]
    exact ⟨stopped_of_error sound site formed here rfl hb hid hfault _, .refl c.scene⟩
  · have sound' := sound.mark_found site formed here rfl fun b id hb hid =>
      (hglobal b id hb hid).elim
    rw [assign_global hglobal]
    cases c.scene.machine.globals.contains ref.name.text with
    | true =>
      exact ⟨⟨sound_withGlobal sound.scene ref.name.text hvalue, sound'.steps⟩,
        later_withGlobal c.scene ref.name.text value, trivial⟩
    | false =>
      refine ⟨.elsewhere sound' ?_, .refl c.scene⟩
      rintro _ _ ⟨⟩
      exact FailureCause.ordinary_undefinedVariable plain.2.2

/-- The record of the current frame has just the names of the innermost layer, so there is room for
one more if the layer has it. -/
theorem Scene.At.room {s : Scene} {p : Position} (here : s.At p) {id : FrameId}
    (hid : s.machine.current = some id) {name : String}
    (room : ∀ layer ∈ p.head?, layer.declared ++ [name] <+: layer.region.names) :
    ∀ r, s.records[id]? = some r → r.names ++ [name] <+: r.region.names := by
  intro r hr
  have hreached := here.reached
  rw [hid] at hreached
  cases p with
  | nil => exact hreached.elim
  | cons layer outer =>
    obtain ⟨⟨found, hfound, hregion, -⟩, -⟩ := hreached
    obtain rfl : r = found := Option.some.inj (hr.symm.trans hfound)
    rw [here.exact id hid layer rfl r hr, hregion]
    exact room layer rfl

/-- Behind a declaration in the current frame the scene is behind it in the text. -/
theorem Scene.At.declared {s : Scene} {p : Position} (here : s.At p) {id : FrameId}
    (hid : s.machine.current = some id) (recorded : s.Recorded) (explicit : s.Explicit id)
    (name : String) (value : Value) : (s.declared id name value).At (p.declare name) := by
  have hcurrent : (s.declared id name value).machine.current = some id := hid
  have hlater := later_declared recorded explicit name value
  have hreached := here.reached
  rw [hid] at hreached
  cases p with
  | nil => exact hreached.elim
  | cons layer outer =>
    obtain ⟨⟨r, hr, hregion, -⟩, houter⟩ := hreached
    have hrecord : (s.declared id name value).records[id]? = some (r.declare name value) := by
      have h := getElem?_modify_of_record id (·.declare name value) hr
      rwa [if_pos rfl] at h
    -- The innermost layer tells just what the frame holds, so that the new name comes right behind.
    have hnames : (r.declare name value).names = layer.declared ++ [name] := by
      rw [Record.names_declare, here.exact id hid layer rfl r hr]
    refine ⟨?_, ?_⟩
    · rw [hcurrent]
      refine ⟨⟨_, hrecord, hregion, hnames ▸ List.prefix_rfl⟩, ?_⟩
      rw [hlater.outer id r hr]
      exact houter.keeps hlater.toKeeps
    · rw [hcurrent]
      rintro _ ⟨⟩ _ ⟨⟩ r' hr'
      rw [Option.mem_def, hrecord] at hr'
      cases hr'
      exact hnames

/-- A declaration that is completed adds the next variable of its scope. -/
theorem steady_declare {p : Position} {name : String} {value : Value} (sound : c.Sound known)
    (here : c.scene.At p) (plain : name ≠ thisName ∧ name ≠ superName)
    (room : ∀ layer ∈ p.head?, layer.declared ++ [name] <+: layer.region.names)
    (hvalue : ∀ s, c.scene.Keeps c.scene.machine.current s →
      s.Matches c.scene.machine.current (p.declare name) → value.Sound known s) :
    Steady known c.scene.machine.current (Watch.declare name value) c
      fun _ s => s.At (p.declare name) := by
  unfold Steady Ensures
  -- Without a frame the position is empty and the name becomes a global; else the frame gets it.
  cases hcurrent : c.scene.machine.current with
  | none =>
    have hreached := here.reached
    rw [hcurrent] at hreached hvalue
    rw [declare_global hcurrent]
    cases p with
    | cons layer outer => exact hreached.elim
    | nil =>
      have hsound := hvalue c.scene (.refl none c.scene) trivial
      have hlater := later_withGlobal c.scene name value
      exact ⟨⟨sound_withGlobal sound.scene name hsound, sound.steps⟩, hlater, here.later hlater⟩
  | some id =>
    rw [hcurrent] at hvalue
    rw [declare_local hcurrent]
    have hroom := here.room hcurrent room
    have explicit : c.scene.Explicit id := fun r hr =>
      Region.not_implicit ((hroom r hr).subset (by simp)) plain
    have hlater := later_declared sound.scene.recorded explicit name value
    have here' := here.declared hcurrent sound.scene.recorded explicit name value
    have hmatches : (c.scene.declared id name value).Matches (some id) (p.declare name) :=
      hcurrent ▸ here'.reached
    have hsound := sound_declared sound.scene explicit hroom (hvalue _ hlater.toKeeps hmatches)
    exact ⟨⟨hsound, sound.steps⟩, hlater, here'⟩

end LoxLang
