import LoxLang.Proofs.Machine.Scene
import LoxLang.Proofs.Scoping.Refusals
import LoxLang.Proofs.Scoping.Tables

/-!
# Sound scenes

Closures outlive the run that makes them, so that the position of the code of each has to match
the frames it keeps. This is said of every value that a machine stores, relative to the sites
`known` so far: those of all trees that have been accepted.
-/

namespace LoxLang

/-! ## Methods of instances and classes -/

/-- What a method is called on: an instance of a class, or a class itself. -/
inductive Kind
  | instances
  | classes
deriving Repr, DecidableEq

/-- The kind of an object, by which `super` chooses between the methods of a class. -/
def Value.kind : Value → Kind
  | .classValue _ => .classes
  | _ => .instances

/-- The method of a name that a class has for objects of a kind. -/
def Class.find? (c : Class) (kind : Kind) (name : String) : Option Closure :=
  match kind with
  | .instances => c.findMethod? name
  | .classes => c.findClassMethod? name

/-- An instance or a class: what its fields are kept under, the class whose methods it has, and of
which kind these are. -/
def Value.object? : Value → Option (ObjectId × Class × Kind)
  | .instanceOf id c => some (id, c, .instances)
  | .classValue c => some (c.id, c, .classes)
  | _ => none

/-! ## Sound values -/

/-- A closure whose code stands at a position that its frame matches. The frame of an
initializer is the one that holds `this`. -/
def Closure.Sound (known : Site → Prop) (s : Scene) (f : Closure) : Prop :=
  ∃ p : Position, s.Matches f.frame p ∧ p.Formed ∧ f.function.Formed ∧
    (∀ x ∈ f.function.sites p, known x) ∧
    (f.isInitializer = true → ∃ outer : Position, p = outer.enter .receiver [thisName])

/-- A method, which has yet to be bound to an object. -/
def Closure.SoundMethod (known : Site → Prop) (s : Scene) (f : Closure) : Prop :=
  ∃ p : Position, s.Matches f.frame p ∧ (p.enter .receiver [thisName]).Formed ∧
    f.function.Formed ∧ ∀ x ∈ f.function.sites (p.enter .receiver [thisName]), known x

/-- Methods, which have yet to be bound to an object. -/
def Methods.Sound (known : Site → Prop) (s : Scene) (methods : Methods) : Prop :=
  ∀ name f, methods.get? name = some f → f.SoundMethod known s

/-- A class whose methods are sound, and those of the classes it extends. -/
inductive Class.Sound (known : Site → Prop) (s : Scene) : Class → Prop
  | mk {id : ObjectId} {name : String} {superclass metaclass : Option Class} {methods : Methods}
      (superclasses : ∀ c, superclass = some c → Class.Sound known s c)
      (methodsSound : methods.Sound known s)
      (metaclasses : ∀ c, metaclass = some c → Class.Sound known s c) :
      Class.Sound known s (.mk id name superclass methods metaclass)

/-- A value all of whose closures are sound. -/
def Value.Sound (known : Site → Prop) (s : Scene) : Value → Prop
  | .function _ f => f.Sound known s
  | .classValue c => c.Sound known s
  | .instanceOf _ c => c.Sound known s
  | .traitValue _ t => t.methods.Sound known s
  | _ => True

section

variable {known : Site → Prop} {s s' : Scene} {growing : Option FrameId}

theorem Closure.Sound.keeps {f : Closure} (h : f.Sound known s) (keeps : s.Keeps growing s') :
    f.Sound known s' := by
  obtain ⟨p, hmatches, hrest⟩ := h
  exact ⟨p, hmatches.keeps keeps, hrest⟩

theorem Closure.SoundMethod.keeps {f : Closure} (h : f.SoundMethod known s)
    (keeps : s.Keeps growing s') : f.SoundMethod known s' := by
  obtain ⟨p, hmatches, hrest⟩ := h
  exact ⟨p, hmatches.keeps keeps, hrest⟩

theorem Methods.Sound.keeps {methods : Methods} (h : methods.Sound known s)
    (keeps : s.Keeps growing s') : methods.Sound known s' :=
  fun name f hf => (h name f hf).keeps keeps

theorem Class.Sound.keeps {c : Class} (h : c.Sound known s) (keeps : s.Keeps growing s') :
    c.Sound known s' := by
  induction h with
  | mk superclasses methodsSound metaclasses ihSuper ihMeta =>
    exact .mk ihSuper (methodsSound.keeps keeps) ihMeta

theorem Value.Sound.keeps {v : Value} (h : v.Sound known s) (keeps : s.Keeps growing s') :
    v.Sound known s' := by
  cases v with
  | function id f => exact Closure.Sound.keeps h keeps
  | classValue c => exact Class.Sound.keeps h keeps
  | instanceOf id c => exact Class.Sound.keeps h keeps
  | traitValue id t => exact Methods.Sound.keeps h keeps
  | _ => trivial

/-! ## Further sites -/

variable {known' : Site → Prop}

theorem Closure.SoundMethod.further {f : Closure} (h : f.SoundMethod known s)
    (more : ∀ x, known x → known' x) : f.SoundMethod known' s := by
  obtain ⟨p, hmatches, formed, code, sites⟩ := h
  exact ⟨p, hmatches, formed, code, fun x hx => more x (sites x hx)⟩

theorem Class.Sound.further {c : Class} (h : c.Sound known s) (more : ∀ x, known x → known' x) :
    c.Sound known' s := by
  induction h with
  | mk superclasses methodsSound metaclasses ihSuper ihMeta =>
    exact .mk ihSuper (fun name f hf => (methodsSound name f hf).further more) ihMeta

/-- Values stay sound when further sites become known. -/
theorem Value.Sound.further {v : Value} (h : v.Sound known s) (more : ∀ x, known x → known' x) :
    v.Sound known' s := by
  cases v with
  | function id f =>
    obtain ⟨p, hmatches, formed, code, sites, initializer⟩ := h
    exact ⟨p, hmatches, formed, code, fun x hx => more x (sites x hx), initializer⟩
  | classValue c => exact Class.Sound.further h more
  | instanceOf id c => exact Class.Sound.further h more
  | traitValue id t => exact fun name f hf => (h name f hf).further more
  | _ => trivial

/-! ## Methods of sound classes -/

theorem Class.Sound.methods {c : Class} (h : c.Sound known s) : c.methods.Sound known s := by
  cases h with
  | mk _ methodsSound _ => exact methodsSound

theorem Class.Sound.superclass {c d : Class} (h : c.Sound known s)
    (hd : c.superclass = some d) : d.Sound known s := by
  cases h with
  | mk superclasses _ _ => exact superclasses d hd

theorem Class.Sound.metaclass {c d : Class} (h : c.Sound known s) (hd : c.metaclass = some d) :
    d.Sound known s := by
  cases h with
  | mk _ _ metaclasses => exact metaclasses d hd

/-- A method that is found is one of the class or of a class it extends. -/
theorem Class.Sound.findMethod {c : Class} (h : c.Sound known s) {name : String} {f : Closure}
    (hf : c.findMethod? name = some f) : f.SoundMethod known s := by
  induction h with
  | @mk id className superclass metaclass methods superclasses methodsSound _ ihSuper _ =>
    cases superclass with
    | none =>
      unfold Class.findMethod? at hf
      exact methodsSound name f hf
    | some c =>
      unfold Class.findMethod? at hf
      split at hf
      · next method hmethod =>
        cases hf
        exact methodsSound name f hmethod
      · exact ihSuper c rfl hf

theorem Class.Sound.findClassMethod {c : Class} (h : c.Sound known s) {name : String}
    {f : Closure} (hf : c.findClassMethod? name = some f) : f.SoundMethod known s := by
  unfold Class.findClassMethod? at hf
  obtain ⟨d, hd, hf⟩ := Option.bind_eq_some_iff.mp hf
  exact (h.metaclass hd).findMethod hf

theorem Class.Sound.find {c : Class} (h : c.Sound known s) {kind : Kind} {name : String}
    {f : Closure} (hf : c.find? kind name = some f) : f.SoundMethod known s := by
  cases kind with
  | instances => exact h.findMethod hf
  | classes => exact h.findClassMethod hf

theorem Value.Sound.class {v : Value} (h : v.Sound known s) {id : ObjectId} {c : Class}
    {kind : Kind} (hv : v.object? = some (id, c, kind)) : c.Sound known s := by
  cases v with
  | instanceOf found type =>
    cases hv
    exact h
  | classValue type =>
    cases hv
    exact h
  | _ => cases hv

end

/-! ## Sound scenes -/

/-- The values that a machine stores. -/
inductive Machine.Stores (m : Machine) : Value → Prop
  | global {name : String} {v : Value} (h : m.globals.get? name = some v) : Stores m v
  | slot {id : FrameId} {v : Value} (h : v ∈ m.frames.values id) : Stores m v
  | field {object : ObjectId} {name : String} {v : Value}
      (h : (m.objects.getD object Dictionary.empty).get? name = some v) : Stores m v
  | element {array : ArrayId} {v : Value} (h : v ∈ m.arrays.getD array #[]) : Stores m v

/-- Each frame has a record, lies in an earlier frame, if in any, and holds the values of the
variables that are recorded: the first ones of its scope. -/
structure Scene.Recorded (s : Scene) : Prop where
  size : s.records.size = s.machine.frames.size
  values : ∀ (id : FrameId) (r : Record), s.records[id]? = some r →
    (s.machine.frames.values id).toList = r.values
  names : ∀ (id : FrameId) (r : Record), s.records[id]? = some r → r.names <+: r.region.names
  outward : ∀ (id : FrameId) (r : Record), s.records[id]? = some r →
    ∀ outer : FrameId, s.machine.frames.outer? id = some outer → outer < id

theorem Scene.Recorded.length_names {s : Scene} (h : s.Recorded) {id : FrameId} {r : Record}
    (hr : s.records[id]? = some r) : (s.machine.frames.values id).size = r.names.length := by
  rw [← Array.length_toList, h.values id r hr, Record.values, Record.names, List.length_map,
    List.length_map]

/-- A variable that has been declared before a position is there. -/
theorem Scene.Recorded.holder {s : Scene} (h : s.Recorded) {id : FrameId} {p : Position}
    (hmatches : s.Matches (some id) p) (depth slot : Nat) {layer : Layer}
    (hdepth : p[depth]? = some layer) (hslot : slot < layer.declared.length) :
    ∃ frame, s.machine.frames.holder id depth slot = .ok frame := by
  obtain ⟨frame, r, hframe, hr, -, hnames⟩ := hmatches.outward hdepth
  refine ⟨frame, (Frames.holder_eq_ok _).mpr ⟨hframe, ?_⟩⟩
  rw [h.length_names hr]
  exact Nat.lt_of_lt_of_le hslot hnames.length_le

/-- A scene that a run can be at. -/
structure Scene.Sound (known : Site → Prop) (s : Scene) : Prop where
  recorded : s.Recorded
  agreed : s.machine.bindings.Agrees known
  stored : ∀ v, s.machine.Stores v → v.Sound known s
  sheltered : ∀ x, known x → x.Sheltered
  superclasses : ∀ (id : FrameId) (r : Record), s.records[id]? = some r →
    r.region = .superclass → ∀ v ∈ r.values, ∃ c : Class, v = .classValue c

end LoxLang
