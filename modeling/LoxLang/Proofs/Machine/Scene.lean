import LoxLang.Machine.State
import LoxLang.Proofs.Machine.Frames
import LoxLang.Proofs.Scoping.Site

/-!
# Scenes

A scene is a machine with a record of each frame: the scope of the text that the frame was made
for, and the variables of that scope whose declarations have been completed in it. The machine
itself keeps values only. A scene is at a position of the text if the frames that can be reached
from the current one are those of the scopes around the position (`Scene.At`), and it is sound
if its frames hold what the records say and every closure that it stores can be called at a
position of its own (`Scene.Sound`).
-/

namespace LoxLang

/-! ## Records -/

/-- The scope that a frame was made for, and the variables of that scope whose declarations have
been completed in the frame, with their values. -/
structure Record where
  region : Region
  slots : List (String × Value)

namespace Record

/-- The names of the variables of a frame. -/
def names (r : Record) : List String :=
  r.slots.map Prod.fst

/-- The values of the variables of a frame. -/
def values (r : Record) : List Value :=
  r.slots.map Prod.snd

/-- The record after a declaration has been completed. -/
def declare (name : String) (value : Value) (r : Record) : Record :=
  { r with slots := r.slots ++ [(name, value)] }

/-- The record after a variable has been given another value. -/
def assign (slot : Nat) (value : Value) (r : Record) : Record :=
  { r with slots := r.slots.modify slot fun v => (v.1, value) }

@[simp] theorem region_declare (name : String) (value : Value) (r : Record) :
    (r.declare name value).region = r.region := rfl

@[simp] theorem names_declare (name : String) (value : Value) (r : Record) :
    (r.declare name value).names = r.names ++ [name] := by
  simp [names, declare]

@[simp] theorem values_declare (name : String) (value : Value) (r : Record) :
    (r.declare name value).values = r.values ++ [value] := by
  simp [values, declare]

@[simp] theorem region_assign (slot : Nat) (value : Value) (r : Record) :
    (r.assign slot value).region = r.region := rfl

@[simp] theorem names_assign (slot : Nat) (value : Value) (r : Record) :
    (r.assign slot value).names = r.names := by
  simp only [names, assign]
  apply List.ext_getElem?
  intro i
  simp only [List.getElem?_map, List.getElem?_modify]
  split
  · cases r.slots[i]? <;> rfl
  · simp

@[simp] theorem values_assign (slot : Nat) (value : Value) (r : Record) :
    (r.assign slot value).values = r.values.set slot value := by
  simp only [values, assign]
  apply List.ext_getElem?
  intro i
  simp only [List.getElem?_map, List.getElem?_modify, List.getElem?_set, List.length_map]
  split
  · next h =>
    subst h
    cases hslot : r.slots[slot]? with
    | none =>
      have := List.getElem?_eq_none_iff.mp hslot
      simp [Nat.not_lt.mpr this]
    | some v =>
      have := (List.getElem?_eq_some_iff.mp hslot).1
      simp [this]
  · simp

end Record

/-! ## Positions of a scene -/

/-- A machine and the records of its frames. -/
structure Scene where
  machine : Machine
  records : Array Record

/-- The frames that can be reached from a frame are those of the scopes around a position. -/
def Scene.Matches (s : Scene) : Option FrameId → Position → Prop
  | none, [] => True
  | some id, layer :: outer =>
    (∃ r, s.records[id]? = some r ∧ r.region = layer.region ∧ layer.declared <+: r.names) ∧
      s.Matches (s.machine.frames.outer? id) outer
  | _, _ => False

/-- The current frame is that of the innermost scope around a position, and its variables are
those whose declarations end before the position. -/
structure Scene.At (s : Scene) (p : Position) : Prop where
  reached : s.Matches s.machine.current p
  exact : ∀ id ∈ s.machine.current, ∀ layer ∈ p.head?, ∀ r ∈ s.records[id]?,
    r.names = layer.declared

/-- No frame is lost or put elsewhere, only the given one, if any, has new variables, and those
of `this` and `super` keep what they hold. -/
structure Scene.Keeps (growing : Option FrameId) (s s' : Scene) : Prop where
  records : ∀ id r, s.records[id]? = some r → ∃ r', s'.records[id]? = some r' ∧
    r'.region = r.region ∧ r.names <+: r'.names ∧ (some id ≠ growing → r'.names = r.names)
  outer : ∀ id r, s.records[id]? = some r →
    s'.machine.frames.outer? id = s.machine.frames.outer? id
  implicit : ∀ (id : FrameId) (r : Record), s.records[id]? = some r → r.region.Implicit →
    s'.records[id]? = some r

/-- The current frame is the same, and so are the bindings. -/
structure Scene.Stays (s s' : Scene) : Prop where
  current : s'.machine.current = s.machine.current
  bindings : s'.machine.bindings = s.machine.bindings

/-- A scene later in the same run of something. -/
structure Scene.Later (growing : Option FrameId) (s s' : Scene) : Prop
    extends Scene.Keeps growing s s', Scene.Stays s s'

namespace Scene

variable {s s' s'' : Scene} {growing : Option FrameId}

theorem Keeps.refl (growing : Option FrameId) (s : Scene) : Keeps growing s s where
  records _ r h := ⟨r, h, rfl, List.prefix_rfl, fun _ => rfl⟩
  outer _ _ _ := rfl
  implicit _ _ h _ := h

theorem Keeps.trans (h : Keeps growing s s') (h' : Keeps growing s' s'') :
    Keeps growing s s'' where
  records id r hr := by
    obtain ⟨r', hr', hregion, hnames, hsame⟩ := h.records id r hr
    obtain ⟨r'', hr'', hregion', hnames', hsame'⟩ := h'.records id r' hr'
    refine ⟨r'', hr'', hregion'.trans hregion, hnames.trans hnames', ?_⟩
    intro hid
    exact (hsame' hid).trans (hsame hid)
  outer id r hr := by
    obtain ⟨r', hr', -⟩ := h.records id r hr
    exact (h'.outer id r' hr').trans (h.outer id r hr)
  implicit id r hr himplicit := h'.implicit id r (h.implicit id r hr himplicit) himplicit

/-- A frame that was not there before does not count as growing. -/
theorem Keeps.trans_new {frame : FrameId} (h : Keeps none s s')
    (h' : Keeps (some frame) s' s'') (new : s.records[frame]? = none) : Keeps none s s'' where
  records id r hr := by
    obtain ⟨r', hr', hregion, hnames, hsame⟩ := h.records id r hr
    obtain ⟨r'', hr'', hregion', hnames', hsame'⟩ := h'.records id r' hr'
    refine ⟨r'', hr'', hregion'.trans hregion, hnames.trans hnames', fun _ => ?_⟩
    refine (hsame' ?_).trans (hsame (by simp))
    rintro ⟨⟩
    rw [new] at hr
    cases hr
  outer id r hr := by
    obtain ⟨r', hr', -⟩ := h.records id r hr
    exact (h'.outer id r' hr').trans (h.outer id r hr)
  implicit id r hr himplicit := h'.implicit id r (h.implicit id r hr himplicit) himplicit

/-- Where no frame grows, none grows but the given one. -/
theorem Keeps.weaken (h : Keeps none s s') (growing : Option FrameId) : Keeps growing s s' where
  records id r hr := by
    obtain ⟨r', hr', hregion, hnames, hsame⟩ := h.records id r hr
    exact ⟨r', hr', hregion, hnames, fun _ => hsame (by simp)⟩
  outer := h.outer
  implicit := h.implicit

theorem Stays.refl (s : Scene) : Stays s s :=
  ⟨rfl, rfl⟩

theorem Stays.trans (h : Stays s s') (h' : Stays s' s'') : Stays s s'' :=
  ⟨h'.current.trans h.current, h'.bindings.trans h.bindings⟩

theorem Later.refl (growing : Option FrameId) (s : Scene) : Later growing s s :=
  ⟨.refl growing s, .refl s⟩

theorem Later.trans (h : Later growing s s') (h' : Later growing s' s'') :
    Later growing s s'' :=
  ⟨h.toKeeps.trans h'.toKeeps, h.toStays.trans h'.toStays⟩

theorem Later.weaken (h : Later none s s') (growing : Option FrameId) : Later growing s s' :=
  ⟨h.toKeeps.weaken growing, h.toStays⟩

theorem Matches.keeps {frame : Option FrameId} {p : Position} (h : s.Matches frame p)
    (keeps : Keeps growing s s') : s'.Matches frame p := by
  induction p generalizing frame with
  | nil =>
    cases frame with
    | none => trivial
    | some id => exact h.elim
  | cons layer rest ih =>
    cases frame with
    | none => exact h.elim
    | some id =>
      obtain ⟨⟨r, hr, hregion, hnames⟩, hrest⟩ := h
      obtain ⟨r', hr', hregion', hnames', -⟩ := keeps.records id r hr
      refine ⟨⟨r', hr', hregion'.trans hregion, hnames.trans hnames'⟩, ?_⟩
      rw [keeps.outer id r hr]
      exact ih hrest

theorem At.later {p : Position} (h : s.At p) (later : Later none s s') : s'.At p where
  reached := by
    rw [later.current]
    exact h.reached.keeps later.toKeeps
  exact := by
    rw [later.current]
    intro id hid layer hlayer r' hr'
    have hreached := h.reached
    rw [hid] at hreached
    cases p with
    | nil => exact hreached.elim
    | cons first rest =>
      obtain ⟨⟨r, hr, -⟩, -⟩ := hreached
      obtain ⟨found, hfound, -, -, hsame⟩ := later.records id r hr
      rw [Option.mem_def, hfound, Option.some.injEq] at hr'
      rw [← hr', hsame (by simp)]
      exact h.exact id hid layer hlayer r hr

/-- The scopes around a position have a frame each, which holds at least the variables declared
before the position. -/
theorem Matches.outward {id : FrameId} {p : Position} (h : s.Matches (some id) p) {k : Nat}
    {layer : Layer} (hk : p[k]? = some layer) :
    ∃ frame r, s.machine.frames.outward? id k = some frame ∧ s.records[frame]? = some r ∧
      r.region = layer.region ∧ layer.declared <+: r.names := by
  induction k generalizing p id with
  | zero =>
    cases p with
    | nil => simp at hk
    | cons first rest =>
      simp only [List.getElem?_cons_zero, Option.some.injEq] at hk
      obtain ⟨⟨r, hr, hregion, hnames⟩, -⟩ := h
      subst hk
      exact ⟨id, r, rfl, hr, hregion, hnames⟩
  | succ k ih =>
    cases p with
    | nil => simp at hk
    | cons first rest =>
      rw [List.getElem?_cons_succ] at hk
      obtain ⟨-, hrest⟩ := h
      unfold Frames.outward?
      cases houter : s.machine.frames.outer? id with
      | none =>
        rw [houter] at hrest
        cases rest with
        | nil => simp at hk
        | cons second rest => exact hrest.elim
      | some outer =>
        rw [houter] at hrest
        exact ih hrest hk

/-- Beyond the outermost scope of a position there is no frame. -/
theorem Matches.outward_none {id : FrameId} {p : Position} (h : s.Matches (some id) p) {k : Nat}
    (hk : p.length ≤ k) : s.machine.frames.outward? id k = none := by
  induction k generalizing p id with
  | zero =>
    cases p with
    | nil => exact h.elim
    | cons first rest => simp at hk
  | succ k ih =>
    cases p with
    | nil => exact h.elim
    | cons first rest =>
      obtain ⟨-, hrest⟩ := h
      unfold Frames.outward?
      cases houter : s.machine.frames.outer? id with
      | none => rfl
      | some outer =>
        rw [houter] at hrest
        exact ih hrest (by simpa using hk)

end Scene

end LoxLang
