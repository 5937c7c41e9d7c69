import LoxLang.Proofs.Evaluation.Steps
import LoxLang.Proofs.Machine.Sharing

/-!
# Reading and writing by slots

At a position of the text the frames of a scene are those of the scopes around it, each with the
variables of its scope in their slots (`Scene.Aligned`). So what is looked up there for an
occurrence is the value of the variable that the text says (`Scene.Reads`), and what is assigned
replaces the value of that variable and of no other one (`Scene.Writes`).
-/

namespace LoxLang

/-! ## Frames of a scene -/

namespace Scene

/-- The frame that lies a number of steps outward from the current one. -/
def frame? (s : Scene) (depth : Nat) : Option FrameId :=
  s.machine.current.bind fun id => s.machine.frames.outward? id depth

/-- A frame holds the variables of a scope whose declarations have been completed in it: the
first ones of the scope, and at least those that are declared before the position. -/
structure Holds (s : Scene) (frame : FrameId) (layer : Layer) (r : Record) : Prop where
  record : s.records[frame]? = some r
  region : r.region = layer.region
  values : (s.machine.frames.values frame).toList = r.values
  first : r.names <+: layer.region.names
  declared : layer.declared <+: r.names

/-- There are as many frames as scopes around a position, and each holds the variables of its
scope. In the innermost one these are just those declared before the position. -/
structure Aligned (s : Scene) (p : Position) : Prop where
  chain : ∀ depth, (s.frame? depth).isSome = true ↔ depth < p.length
  contents : ∀ depth layer, p[depth]? = some layer →
    ∃ frame r, s.frame? depth = some frame ∧ s.Holds frame layer r ∧
      (depth = 0 → r.names = layer.declared)

/-- The slot to which a binding leads holds the variable of this name, which has this value. -/
def Has (s : Scene) (p : Position) (b : Binding) (name : String) (holder : FrameId) (v : Value) :
    Prop :=
  ∃ layer r, p[b.depth]? = some layer ∧ s.frame? b.depth = some holder ∧ s.Holds holder layer r ∧
    r.slots[b.slot]? = some (name, v)

/-- The slot to which a binding leads is that of the variable of this name, whose declaration has
not been completed in the frame. -/
def Lacks (s : Scene) (p : Position) (b : Binding) (name : String) (holder : FrameId) : Prop :=
  ∃ layer r, p[b.depth]? = some layer ∧ layer.begun[b.slot]? = some name ∧
    s.frame? b.depth = some holder ∧ s.Holds holder layer r ∧ r.slots.length ≤ b.slot

/-- If there is a value in a slot of the frame at a depth, it is that of the variable with the
name in the scope at that depth. -/
def Finds (s : Scene) (p : Position) (b : Binding) (name : String) : Prop :=
  ∀ id holder, s.machine.current = some id →
    s.machine.frames.holder id b.depth b.slot = .ok holder →
    ∃ v, s.Has p b name holder v ∧ s.machine.frames.get id b.depth b.slot = .ok v

theorem frame?_eq {s : Scene} {id : FrameId} (hid : s.machine.current = some id) (depth : Nat) :
    s.frame? depth = s.machine.frames.outward? id depth := by
  unfold frame?
  rw [hid]
  rfl

theorem Matches.holds {s : Scene} (recorded : s.Recorded) {id : FrameId} {p : Position}
    (h : s.Matches (some id) p) {depth : Nat} {layer : Layer} (hlayer : p[depth]? = some layer) :
    ∃ frame r, s.machine.frames.outward? id depth = some frame ∧ s.Holds frame layer r := by
  obtain ⟨frame, r, hframe, hr, hregion, hdeclared⟩ := h.outward hlayer
  have hfirst := recorded.names frame r hr
  rw [hregion] at hfirst
  exact ⟨frame, r, hframe, hr, hregion, recorded.values frame r hr, hfirst, hdeclared⟩

/-- At a position the frames are those of the scopes around it. -/
theorem At.aligned {s : Scene} {p : Position} (here : s.At p) (recorded : s.Recorded) :
    s.Aligned p := by
  have hreached := here.reached
  cases hcurrent : s.machine.current with
  | none =>
    rw [hcurrent] at hreached
    cases p with
    | cons layer outer => exact hreached.elim
    | nil =>
      refine ⟨fun depth => ?_, fun depth layer hlayer => ?_⟩
      · unfold frame?
        rw [hcurrent]
        simp
      · simp at hlayer
  | some id =>
    rw [hcurrent] at hreached
    refine ⟨fun depth => ?_, fun depth layer hlayer => ?_⟩
    · rw [frame?_eq hcurrent]
      refine ⟨fun hsome => ?_, fun hlt => ?_⟩
      · refine Nat.lt_of_not_le fun hge => ?_
        rw [hreached.outward_none hge] at hsome
        cases hsome
      · obtain ⟨frame, r, hframe, -⟩ := hreached.holds recorded (List.getElem?_eq_getElem hlt)
        rw [hframe]
        rfl
    · obtain ⟨frame, r, hframe, hholds⟩ := hreached.holds recorded hlayer
      refine ⟨frame, r, (frame?_eq hcurrent depth).trans hframe, hholds, ?_⟩
      -- The innermost frame has just what has been declared so far; further out it is known only
      -- which names a scope has.
      rintro rfl
      have hsame : id = frame := Option.some.inj hframe
      subst hsame
      rw [← List.head?_eq_getElem?] at hlayer
      exact here.exact id hcurrent layer hlayer r hholds.record

/-- A slot that a scope has for a name is found to hold the variable of that name. -/
theorem At.finds {s : Scene} {p : Position} (here : s.At p) (recorded : s.Recorded)
    (formed : p.Formed) {b : Binding} {layer : Layer} {name : String}
    (hlayer : p[b.depth]? = some layer) (hname : layer.begun[b.slot]? = some name) :
    s.Finds p b name := by
  intro id holder hid hholder
  have hreached := here.reached
  rw [hid] at hreached
  obtain ⟨frame, r, hframe, hholds⟩ := hreached.holds recorded hlayer
  obtain ⟨houtward, hslot⟩ := Frames.holder_eq_ok _ |>.mp hholder
  have hsame : frame = holder := Option.some.inj (hframe.symm.trans houtward)
  subst hsame
  rw [recorded.length_names hholds.record] at hslot
  have hlt : b.slot < r.slots.length := by simpa [Record.names] using hslot
  -- Both what the frame has and what the scope has begun are the first names of the scope.
  have hvariable : r.slots[b.slot].1 = name := by
    have hfound : r.names[b.slot] = name := by
      rw [hholds.first.getElem hslot]
      obtain ⟨hbegun, hname⟩ := List.getElem?_eq_some_iff.mp hname
      rw [← hname, (formed.begun layer (List.mem_of_getElem? hlayer)).getElem hbegun]
    simpa [Record.names] using hfound
  have hvalue : (s.machine.frames.values frame)[b.slot]? = some r.slots[b.slot].2 := by
    rw [← Array.getElem?_toList, hholds.values, Record.values, List.getElem?_map,
      List.getElem?_eq_getElem hlt]
    rfl
  refine ⟨r.slots[b.slot].2, ⟨layer, r, hlayer, (frame?_eq hid _).trans hframe, hholds, ?_⟩, ?_⟩
  · rw [List.getElem?_eq_getElem hlt, ← hvariable]
  · rw [Frames.get_eq_ok _ hholder, Array.getD_eq_getD_getElem?, hvalue]
    rfl

end Scene

/-! ## What is read and written -/

namespace Scene

/-- What it comes to that the variable of an occurrence is read. -/
inductive Reads (s : Scene) (p : Position) (ref : Reference) :
    EStateM.Result Stop Machine Value → Prop
  /-- A local variable: its value. -/
  | found {b : Binding} {holder : FrameId} {v : Value}
      (lookup : p.lookup? ref.name.text = some b) (has : s.Has p b ref.name.text holder v) :
      Reads s p ref (.ok v s.machine)
  /-- A local variable that is not there yet: a failure at its own slot. -/
  | undeclared {b : Binding} {holder : FrameId} (lookup : p.lookup? ref.name.text = some b)
      (lacks : s.Lacks p b ref.name.text holder) :
      Reads s p ref (.error (.failed ref.name.line (.frame (.unbound b.slot))) s.machine)
  /-- A global: its value. -/
  | global {v : Value} (lookup : p.lookup? ref.name.text = none)
      (value : s.machine.globals.get? ref.name.text = some v) : Reads s p ref (.ok v s.machine)
  /-- Neither. -/
  | undefined (lookup : p.lookup? ref.name.text = none)
      (missing : s.machine.globals.get? ref.name.text = none) :
      Reads s p ref
        (.error (.failed ref.name.line (.undefinedVariable ref.name.text)) s.machine)

/-- What it comes to that the variable of an occurrence is given a value, where `a` is the result
of a run that does so. -/
inductive Writes (s : Scene) (p : Position) (ref : Reference) (value : Value) {α : Type} (a : α) :
    EStateM.Result Stop Machine α → Prop
  /-- A local variable: all by which the machine is another one is the value in its slot. -/
  | found {b : Binding} {holder : FrameId} {old : Value} {frames : Frames}
      (lookup : p.lookup? ref.name.text = some b) (has : s.Has p b ref.name.text holder old)
      (differ : s.machine.frames.Differ frames holder b.slot value) :
      Writes s p ref value a (.ok a { s.machine with frames := frames })
  /-- A local variable that is not there yet: a failure at its own slot, and nothing is changed. -/
  | undeclared {b : Binding} {holder : FrameId} (lookup : p.lookup? ref.name.text = some b)
      (lacks : s.Lacks p b ref.name.text holder) :
      Writes s p ref value a
        (.error (.failed ref.name.line (.frame (.unbound b.slot))) s.machine)
  /-- A global: it has another value, and no local variable has. -/
  | global (lookup : p.lookup? ref.name.text = none)
      (there : s.machine.globals.contains ref.name.text = true) :
      Writes s p ref value a
        (.ok a { s.machine with globals := s.machine.globals.insert ref.name.text value })
  /-- Neither: nothing is changed. -/
  | undefined (lookup : p.lookup? ref.name.text = none)
      (missing : s.machine.globals.contains ref.name.text = false) :
      Writes s p ref value a
        (.error (.failed ref.name.line (.undefinedVariable ref.name.text)) s.machine)

end Scene

section

variable {known : Site → Prop} {s : Scene} {p : Position} {moment : Moment} {ref : Reference}

/-- A variable that is not found is not there yet. -/
theorem Scene.At.lacks (here : s.At p) (sound : s.Sound known) {b : Binding} {name : String}
    (hb : p.lookup? name = some b) {id : FrameId} (hid : s.machine.current = some id)
    {fault : FrameFault} (hfault : s.machine.frames.holder id b.depth b.slot = .error fault) :
    fault = .unbound b.slot ∧ ∃ holder, s.Lacks p b name holder := by
  obtain ⟨⟨layer, hlayer, hname⟩, -⟩ := Position.lookup?_eq_some hb
  have hreached := here.reached
  rw [hid] at hreached
  obtain ⟨holder, r, hframe, hholds⟩ := hreached.holds sound.recorded hlayer
  obtain ⟨hslot, rfl⟩ := (Frames.holder_eq_error _ hframe).mp hfault
  refine ⟨rfl, holder, layer, r, hlayer, hname, (frame?_eq hid _).trans hframe, hholds, ?_⟩
  rwa [sound.recorded.length_names hholds.record, Record.names, List.length_map] at hslot

/-- An occurrence denotes a global if it has no binding where it stands. -/
theorem Scene.At.lookup_none (here : s.At p) (sound : s.Sound known)
    (site : known ⟨p, moment⟩) (href : moment.reference? = some ref)
    (hglobal : ∀ b frame, s.machine.bindings[ref.id]? = some b → s.machine.current = some frame →
      False) : p.lookup? ref.name.text = none := by
  cases hlookup : p.lookup? ref.name.text with
  | none => rfl
  | some b =>
    have hb := (sound.agreed ⟨p, moment⟩ site ref href).trans hlookup
    obtain ⟨id, hid⟩ := here.current sound site href hb
    exact (hglobal b id hb hid).elim

/-- What is looked up for an occurrence is the value of the variable that the text says. -/
theorem Scene.At.reads (here : s.At p) (sound : s.Sound known) (formed : p.Formed)
    (site : known ⟨p, moment⟩) (href : moment.reference? = some ref) :
    s.Reads p ref (Run.lookUp ref.id ref.name.text ref.name.line s.machine) := by
  have hagreed := sound.agreed ⟨p, moment⟩ site ref href
  rcases local_or_global s.machine ref.id with
    ⟨b, id, holder, hb, hid, hholder⟩ | ⟨b, id, fault, hb, hid, hfault⟩ | hglobal
  · have hlookup := hagreed.symm.trans hb
    obtain ⟨⟨layer, hlayer, hname⟩, -⟩ := Position.lookup?_eq_some hlookup
    obtain ⟨v, hhas, hget⟩ := here.finds sound.recorded formed hlayer hname id holder hid hholder
    rw [lookUp_local hb hid, slotValue, hget]
    exact .found hlookup hhas
  · have hlookup := hagreed.symm.trans hb
    obtain ⟨rfl, holder, hlacks⟩ := here.lacks sound hlookup hid hfault
    rw [lookUp_local hb hid, slotValue, Frames.get_eq_error _ hfault]
    exact .undeclared hlookup hlacks
  · have hlookup := here.lookup_none sound site href hglobal
    rw [lookUp_global hglobal]
    cases hvalue : s.machine.globals.get? ref.name.text with
    | some v => exact .global hlookup hvalue
    | none => exact .undefined hlookup hvalue

/-- What is assigned for an occurrence is the variable that the text says, and no other one. -/
theorem Scene.At.writes (here : s.At p) (sound : s.Sound known) (formed : p.Formed)
    (site : known ⟨p, moment⟩) (href : moment.reference? = some ref) (value : Value) :
    s.Writes p ref value ()
      (Run.assign ref.id ref.name.text ref.name.line value s.machine) := by
  have hagreed := sound.agreed ⟨p, moment⟩ site ref href
  rcases local_or_global s.machine ref.id with
    ⟨b, id, holder, hb, hid, hholder⟩ | ⟨b, id, fault, hb, hid, hfault⟩ | hglobal
  · have hlookup := hagreed.symm.trans hb
    obtain ⟨⟨layer, hlayer, hname⟩, -⟩ := Position.lookup?_eq_some hlookup
    obtain ⟨v, hhas, -⟩ := here.finds sound.recorded formed hlayer hname id holder hid hholder
    have hslot := ((Frames.holder_eq_ok _).mp hholder).2
    rw [Run.assign_local hb hid hholder]
    exact .found hlookup hhas (Frames.differ_replace hslot)
  · have hlookup := hagreed.symm.trans hb
    obtain ⟨rfl, holder, hlacks⟩ := here.lacks sound hlookup hid hfault
    rw [Run.assign_missing hb hid hfault]
    exact .undeclared hlookup hlacks
  · have hlookup := here.lookup_none sound site href hglobal
    rw [Run.assign_global hglobal]
    cases hthere : s.machine.globals.contains ref.name.text with
    | true => exact .global hlookup hthere
    | false => exact .undefined hlookup hthere

theorem Scene.Writes.andThen {α β : Type} {value : Value} {run : Run α} {a : α}
    (h : s.Writes p ref value a (run s.machine)) (b : β) :
    s.Writes p ref value b ((run >>= fun _ => pure b) s.machine) := by
  show s.Writes p ref value b (EStateM.bind run _ s.machine)
  unfold EStateM.bind
  generalize run s.machine = result at h
  cases h with
  | found lookup has differ => exact .found lookup has differ
  | undeclared lookup lacks => exact .undeclared lookup lacks
  | global lookup there => exact .global lookup there
  | undefined lookup missing => exact .undefined lookup missing

/-- The value of an assignment is stored where the text says, in the scene that the evaluation of
the value has led to. -/
theorem Chronicle.Ready.assigns {c : Chronicle} (ready : c.Ready known p) {value : Expr}
    (site : Moment.Known known p (.evaluating (.assign ref value))) {budget : Nat} {v : Value}
    {m : Machine} (hvalue : evaluate budget value c.scene.machine = .ok v m) :
    ∃ s : Scene, s.machine = m ∧ s.At p ∧ s.Sound known ∧ s.Writes p ref v v
      (evaluate (budget + 1) (.assign ref value) c.scene.machine) := by
  obtain ⟨formed, known_sites⟩ := site.code _ rfl
  have hsteady : Steady known none (Watch.evaluate budget value) c fun v s => v.Sound known s := by
    refine (steadyAt known budget).evaluate value p c ready ?_ ?_
    · exact formed.2
    · exact fun x hx => known_sites x (List.mem_cons_of_mem _ (List.mem_append_left _ hx))
  obtain ⟨c', rfl, sound, later, -⟩ :=
    hsteady.exists_ok (Watch.erases_evaluate budget value) hvalue
  have here : c'.scene.At p := ready.here.later later
  have storing : known ⟨p, .storing ref⟩ := known_sites _ (by simp [Expr.sites])
  refine ⟨c'.scene, rfl, here, sound.scene, ?_⟩
  have hwrites := (here.writes sound.scene ready.formed storing rfl v).andThen v
  have hassign : evaluate (budget + 1) (.assign ref value) c.scene.machine =
      (Run.assign ref.id ref.name.text ref.name.line v >>= fun _ => pure v) c'.scene.machine := by
    simp only [evaluate, bind, EStateM.bind, hvalue]
  rw [hassign]
  exact hwrites

/-- What `super` is used for is what a class has for an object: the class in the slot of `super`,
and the object in that of `this` in the frame just inside. -/
theorem Scene.At.uses_super (here : s.At p) (sound : s.Sound known) (formed : p.Formed) {id : RefId}
    {line : Nat} {method : Name} (site : known ⟨p, .evaluating (.super id line method)⟩) :
    ∃ depth outer inner k object, p.lookup? superName = some ⟨depth + 1, 0⟩ ∧
      s.Has p ⟨depth + 1, 0⟩ superName outer (.classValue k) ∧
      s.Has p ⟨depth, 0⟩ thisName inner object ∧
      superTarget id line method s.machine =
        .ok (object, k.find? object.kind method.text) s.machine := by
  obtain ⟨depth, frame, outer, inner, hsuper⟩ := Scene.At.super sound here formed site
  obtain ⟨k, hk⟩ := hsuper.extended
  have hlookup : p.lookup? superName = some ⟨depth + 1, 0⟩ :=
    (sound.agreed _ site _ rfl).symm.trans hsuper.bound
  obtain ⟨found, hfound, ⟨layer, hlayer, -, hdeclared⟩, -⟩ := formed.lookup_super hlookup
  obtain rfl : depth = found := by simpa using congrArg Binding.depth hfound
  have hthis : layer.begun[0]? = some thisName := by
    unfold Layer.begun
    rw [hdeclared]
    rfl
  obtain ⟨⟨layer', hlayer', hname'⟩, -⟩ := Position.lookup?_eq_some hlookup
  obtain ⟨c, hc, hgetc⟩ :=
    here.finds sound.recorded formed hlayer' hname' frame outer hsuper.current hsuper.outer
  obtain ⟨object, hobject, hget⟩ :=
    here.finds (b := ⟨depth, 0⟩) sound.recorded formed hlayer hthis frame inner hsuper.current
      hsuper.inner
  rw [Frames.get_eq_ok _ hsuper.outer, hk, Except.ok.injEq] at hgetc
  rw [Frames.get_eq_ok _ hsuper.inner, Except.ok.injEq] at hget
  subst hgetc
  exact ⟨depth, outer, inner, k, object, hlookup, hc, hobject,
    superTarget_eq hsuper hk hget line method⟩

end

end LoxLang
