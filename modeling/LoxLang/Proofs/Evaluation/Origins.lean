import LoxLang.Proofs.Evaluation.Pieces

/-!
# Origins of values

Every class, trait and method that a run comes across was declared at an earlier step of it, or of
a run before it. What is made is said relative to the steps that are past (`past`) and to a scene
behind them: a class has come from a declaration that succeeded and extends a class that was made
before it (`Class.Made`), and a function is one that was written outside of classes and traits, or
a method that is bound to an object (`Closure.Made`). What was made stays so as long as nothing
that it refers to is changed (`Scene.Retains`).
-/

namespace LoxLang

/-! ## Declarations -/

/-- The declaration of a class: the scene at it, its parts, the class that it extends and the
methods of its traits. -/
structure ClassDeclaration where
  scene : Scene
  name : Name
  superclass : Option Reference
  traits : List Reference
  methods : List NamedFunction
  classMethods : List NamedFunction
  extended : Option Class
  composed : Methods

namespace ClassDeclaration

/-- The step that executes the declaration. -/
def step (d : ClassDeclaration) : Step :=
  ⟨.executing (.classDecl d.name d.superclass d.traits d.methods d.classMethods), d.scene⟩

/-- The frame of the methods: the next one, which holds the superclass, if there is one. -/
def frame (d : ClassDeclaration) : Option FrameId :=
  if d.extended.isSome then some d.scene.machine.frames.next else d.scene.machine.current

/-- The class of the methods that are called on the declared class. -/
def metaclass (d : ClassDeclaration) : Class :=
  .mk d.scene.machine.objects.size (d.name.text ++ " metaclass")
    (d.extended.bind Class.metaclass) (classMethodTable d.classMethods d.frame) none

/-- The declared class. -/
def declared (d : ClassDeclaration) : Class :=
  .mk (d.scene.machine.objects.size + 1) d.name.text d.extended
    (addBody d.composed d.methods d.frame) (some d.metaclass)

/-- The head of the declaration comes to the class and the methods that are said. -/
structure Succeeds (d : ClassDeclaration) : Prop where
  derived : d.extended.isSome = d.superclass.isSome
  extended : ∀ ref k, d.superclass = some ref → d.extended = some k →
    Run.lookUp ref.id ref.name.text ref.name.line d.scene.machine =
      .ok (.classValue k) d.scene.machine
  composed : composeTraits d.traits d.methods d.scene.machine = .ok d.composed d.scene.machine

end ClassDeclaration

/-- The declaration of a trait: the scene at it, its parts and the methods of the traits that it
uses. -/
structure TraitDeclaration where
  scene : Scene
  name : Name
  traits : List Reference
  methods : List NamedFunction
  composed : Methods

namespace TraitDeclaration

/-- The step that executes the declaration. -/
def step (d : TraitDeclaration) : Step :=
  ⟨.executing (.traitDecl d.name d.traits d.methods), d.scene⟩

/-- The declared trait. -/
def declared (d : TraitDeclaration) : Trait :=
  ⟨d.name.text, addBody d.composed d.methods d.scene.machine.current⟩

end TraitDeclaration

/-! ## Scenes that follow -/

/-- No frame is lost, put elsewhere or made for another scope, those of `this` and `super` keep
what they hold, and no object is lost. -/
structure Scene.Retains (s s' : Scene) : Prop where
  records : ∀ (id : FrameId) (r : Record), s.records[id]? = some r →
    ∃ r', s'.records[id]? = some r' ∧ r'.region = r.region ∧ (r.region.Implicit → r' = r)
  outer : ∀ (id : FrameId) (r : Record), s.records[id]? = some r →
    s'.machine.frames.outer? id = s.machine.frames.outer? id
  objects : s.machine.objects.size ≤ s'.machine.objects.size

/-- A frame, if any, that is that of a block or a call. -/
def Scene.Plain (s : Scene) (frame : Option FrameId) : Prop :=
  ∀ id, frame = some id → ∃ r, s.records[id]? = some r ∧ ¬r.region.Implicit

section

variable {s s' s'' : Scene}

theorem Scene.Retains.refl (s : Scene) : s.Retains s :=
  ⟨fun _ r hr => ⟨r, hr, rfl, fun _ => rfl⟩, fun _ _ _ => rfl, Nat.le_refl _⟩

theorem Scene.Retains.trans (h : s.Retains s') (h' : s'.Retains s'') : s.Retains s'' where
  records id r hr := by
    obtain ⟨r', hr', hregion, hsame⟩ := h.records id r hr
    obtain ⟨r'', hr'', hregion', hsame'⟩ := h'.records id r' hr'
    refine ⟨r'', hr'', hregion'.trans hregion, fun himplicit => ?_⟩
    exact (hsame' (hregion ▸ himplicit)).trans (hsame himplicit)
  outer id r hr := by
    obtain ⟨r', hr', -⟩ := h.records id r hr
    exact (h'.outer id r' hr').trans (h.outer id r hr)
  objects := Nat.le_trans h.objects h'.objects

theorem Scene.Retains.implicit (h : s.Retains s') {id : FrameId} {r : Record}
    (hr : s.records[id]? = some r) (himplicit : r.region.Implicit) : s'.records[id]? = some r := by
  obtain ⟨r', hr', -, hsame⟩ := h.records id r hr
  rwa [hsame himplicit] at hr'

theorem Scene.Retains.of_keeps {growing : Option FrameId} (h : s.Keeps growing s')
    (objects : s.machine.objects.size ≤ s'.machine.objects.size) : s.Retains s' where
  records id r hr := by
    obtain ⟨r', hr', hregion, -⟩ := h.records id r hr
    refine ⟨r', hr', hregion, fun himplicit => ?_⟩
    rw [h.implicit id r hr himplicit] at hr'
    exact (Option.some.inj hr').symm
  outer := h.outer
  objects := objects

theorem Scene.plain_none (s : Scene) : s.Plain none :=
  nofun

theorem Scene.Plain.retains {frame : Option FrameId} (h : s.Plain frame) (retains : s.Retains s') :
    s'.Plain frame := by
  intro id hid
  obtain ⟨r, hr, explicit⟩ := h id hid
  obtain ⟨r', hr', hregion, -⟩ := retains.records id r hr
  exact ⟨r', hr', hregion ▸ explicit⟩

theorem Scene.Plain.explicit {frame : Option FrameId} (h : s.Plain frame) {id : FrameId}
    (hid : frame = some id) {r : Record} (hr : s.records[id]? = some r) : ¬r.region.Implicit := by
  obtain ⟨r', hr', explicit⟩ := h id hid
  rw [hr, Option.some.injEq] at hr'
  exact hr' ▸ explicit

end

/-! ## Values that were made -/

/-- The frame of a subclass's methods, and that the declaration of the class is past. -/
structure ClassDeclaration.Done (past : Step → Prop) (s : Scene) (d : ClassDeclaration) : Prop where
  step : past d.step
  succeeds : d.Succeeds
  current : s.Plain d.scene.machine.current
  record : ∀ k, d.extended = some k →
    s.records[d.scene.machine.frames.next]? = some (Watch.superclassRecord k)
  outer : ∀ k, d.extended = some k →
    s.machine.frames.outer? d.scene.machine.frames.next = d.scene.machine.current
  objects : d.scene.machine.objects.size + 1 < s.machine.objects.size

/-- The declaration of a trait is past. -/
structure TraitDeclaration.Done (past : Step → Prop) (s : Scene) (d : TraitDeclaration) : Prop where
  step : past d.step
  composed : composeTraits d.traits d.methods d.scene.machine = .ok d.composed d.scene.machine
  current : s.Plain d.scene.machine.current

/-- An instance, or a class. -/
def Value.Answers : Kind → Value → Prop
  | .instances, .instanceOf _ _ => True
  | .classes, .classValue _ => True
  | _, _ => False

/-- A method as it was written in a class or trait, in the frame of the declaration. It is an
initializer exactly if it has the name of one and is called on instances. -/
inductive Closure.Written (past : Step → Prop) (s : Scene) : Kind → Closure → Prop
  | method {d : ClassDeclaration} {f : NamedFunction} (done : d.Done past s) (mem : f ∈ d.methods) :
      Written past s .instances (f.closure d.frame (f.name.text = initializerName))
  | classMethod {d : ClassDeclaration} {f : NamedFunction} (done : d.Done past s)
      (mem : f ∈ d.classMethods) : Written past s .classes (f.closure d.frame false)
  | traitMethod {d : TraitDeclaration} {f : NamedFunction} (done : d.Done past s)
      (mem : f ∈ d.methods) :
      Written past s .instances
        (f.closure d.scene.machine.current (f.name.text = initializerName))

/-- Methods as they were written, under their names. -/
def Methods.Written (past : Step → Prop) (s : Scene) (kind : Kind) (methods : Methods) : Prop :=
  methods.All fun name f => f.name = some name ∧ f.Written past s kind

/-- A class that was declared, with the methods of traits that were, and that extends, if any, a
class that was made before it. -/
inductive Class.Made (past : Step → Prop) (s : Scene) : Class → Prop
  | mk {d : ClassDeclaration} (done : d.Done past s)
      (composed : d.composed.Written past s .instances)
      (superclass : ∀ k, d.extended = some k → Made past s k)
      (older : ∀ k, d.extended = some k → k.id < d.scene.machine.objects.size) :
      Made past s d.declared

/-- A trait that was declared. -/
def Trait.Made (past : Step → Prop) (s : Scene) (t : Trait) : Prop :=
  ∃ d : TraitDeclaration, d.Done past s ∧ d.composed.Written past s .instances ∧ t = d.declared

/-- A function that was written outside of classes and traits, in the frame of a block or a call,
or a method in a frame that binds it to an object. -/
inductive Closure.Made (past : Step → Prop) (s : Scene) : Closure → Prop
  | plain {f : Closure} (ordinary : f.isInitializer = false) (frame : s.Plain f.frame) :
      Made past s f
  | bound {kind : Kind} {method : Closure} {id : FrameId} {receiver : Value}
      (written : method.Written past s kind) (answers : receiver.Answers kind)
      (record : s.records[id]? = some (Watch.receiverRecord receiver))
      (outer : s.machine.frames.outer? id = method.frame) :
      Made past s { method with frame := some id }

/-- A value all of whose classes, traits and functions were made, as was the object itself. -/
def Value.Made (past : Step → Prop) (s : Scene) : Value → Prop
  | .function _ f => f.Made past s
  | .classValue c => c.Made past s
  | .instanceOf id c => c.Made past s ∧ id < s.machine.objects.size
  | .traitValue _ t => t.Made past s
  | _ => True

theorem made_of_bare {past : Step → Prop} {s : Scene} (v : Value) (h : v.Bare) :
    v.Made past s := by
  cases v <;> first | exact trivial | exact h.elim

section

variable {past past' : Step → Prop} {s s' : Scene} {kind : Kind}

/-! ## What was made stays so -/

theorem ClassDeclaration.Done.later {d : ClassDeclaration} (h : d.Done past s)
    (more : ∀ step, past step → past' step) (retains : s.Retains s') : d.Done past' s' where
  step := more _ h.step
  succeeds := h.succeeds
  current := h.current.retains retains
  record k hk := retains.implicit (h.record k hk) trivial
  outer k hk := (retains.outer _ _ (h.record k hk)).trans (h.outer k hk)
  objects := Nat.lt_of_lt_of_le h.objects retains.objects

theorem TraitDeclaration.Done.later {d : TraitDeclaration} (h : d.Done past s)
    (more : ∀ step, past step → past' step) (retains : s.Retains s') : d.Done past' s' :=
  ⟨more _ h.step, h.composed, h.current.retains retains⟩

theorem Closure.Written.later {f : Closure} (h : f.Written past s kind)
    (more : ∀ step, past step → past' step) (retains : s.Retains s') :
    f.Written past' s' kind := by
  cases h with
  | method done mem => exact .method (done.later more retains) mem
  | classMethod done mem => exact .classMethod (done.later more retains) mem
  | traitMethod done mem => exact .traitMethod (done.later more retains) mem

theorem Methods.Written.later {methods : Methods} (h : methods.Written past s kind)
    (more : ∀ step, past step → past' step) (retains : s.Retains s') :
    methods.Written past' s' kind :=
  fun name f hf => (h name f hf).imp_right fun written => written.later more retains

theorem Class.Made.later {c : Class} (h : c.Made past s) (more : ∀ step, past step → past' step)
    (retains : s.Retains s') : c.Made past' s' := by
  induction h with
  | mk done composed _ older ih =>
    exact .mk (done.later more retains) (composed.later more retains) ih older

theorem Closure.Made.later {f : Closure} (h : f.Made past s) (more : ∀ step, past step → past' step)
    (retains : s.Retains s') : f.Made past' s' := by
  cases h with
  | plain ordinary frame => exact .plain ordinary (frame.retains retains)
  | bound written answers record outer =>
    exact .bound (written.later more retains) answers (retains.implicit record trivial)
      ((retains.outer _ _ record).trans outer)

theorem Value.Made.later {v : Value} (h : v.Made past s) (more : ∀ step, past step → past' step)
    (retains : s.Retains s') : v.Made past' s' := by
  cases v with
  | function id f => exact Closure.Made.later h more retains
  | classValue c => exact Class.Made.later h more retains
  | instanceOf id c =>
    exact ⟨Class.Made.later h.1 more retains, Nat.lt_of_lt_of_le h.2 retains.objects⟩
  | traitValue id t =>
    obtain ⟨d, done, composed, rfl⟩ := h
    exact ⟨d, done.later more retains, composed.later more retains, rfl⟩
  | _ => trivial

/-! ## Methods of what was made -/

/-- An initializer is a method with the name of one that is called on instances. -/
theorem Closure.Written.isInitializer {f : Closure} (h : f.Written past s kind) :
    f.isInitializer = true ↔ kind = .instances ∧ f.name = some initializerName := by
  cases h <;> simp [NamedFunction.closure]

theorem Class.Made.methods {c : Class} (h : c.Made past s) :
    c.methods.Written past s .instances := by
  cases h with
  | mk done composed _ _ => exact Methods.All.addBody composed fun f hf => ⟨rfl, .method done hf⟩

theorem Class.Made.superclass {c k : Class} (h : c.Made past s) (hk : c.superclass = some k) :
    k.Made past s := by
  cases h with
  | mk _ _ superclass _ => exact superclass k hk

theorem Trait.Made.methods {t : Trait} (h : t.Made past s) :
    t.methods.Written past s .instances := by
  obtain ⟨d, done, composed, rfl⟩ := h
  exact Methods.All.addBody composed fun f hf => ⟨rfl, .traitMethod done hf⟩

theorem Class.Made.id_lt {c : Class} (h : c.Made past s) : c.id < s.machine.objects.size := by
  cases h with
  | mk done _ _ _ => exact done.objects

theorem Class.Made.findMethod {c : Class} (h : c.Made past s) {name : String} {f : Closure}
    (hf : c.findMethod? name = some f) : f.name = some name ∧ f.Written past s .instances := by
  induction h with
  | @mk d done composed superclass older ih =>
    have hown := (Class.Made.mk done composed superclass older).methods
    unfold ClassDeclaration.declared at hf hown
    cases hextended : d.extended with
    | none =>
      rw [hextended, Class.findMethod?] at hf
      exact hown name f hf
    | some k =>
      rw [hextended, Class.findMethod?] at hf
      split at hf
      · next method hmethod =>
        cases hf
        exact hown name f hmethod
      · exact ih k hextended hf

theorem Class.Made.findClassMethod {c : Class} (h : c.Made past s) {name : String} {f : Closure}
    (hf : c.findClassMethod? name = some f) : f.name = some name ∧ f.Written past s .classes := by
  induction h with
  | @mk d done composed superclass older ih =>
    have hown : (classMethodTable d.classMethods d.frame).Written past s .classes :=
      all_classMethodTable fun g hg => ⟨rfl, .classMethod done hg⟩
    change d.metaclass.findMethod? name = some f at hf
    unfold ClassDeclaration.metaclass at hf
    cases hmeta : d.extended.bind Class.metaclass with
    | none =>
      rw [hmeta, Class.findMethod?] at hf
      exact hown name f hf
    | some k =>
      rw [hmeta, Class.findMethod?] at hf
      split at hf
      · next method hmethod =>
        cases hf
        exact hown name f hmethod
      · obtain ⟨extended, hextended, hk⟩ := Option.bind_eq_some_iff.mp hmeta
        refine ih extended hextended ?_
        unfold Class.findClassMethod?
        rw [hk]
        exact hf

theorem Value.Answers.kind_eq {v : Value} {kind : Kind} (h : v.Answers kind) : v.kind = kind := by
  cases kind <;> cases v <;> first | rfl | exact h.elim

theorem Class.Made.find {c : Class} (h : c.Made past s) {kind : Kind} {name : String} {f : Closure}
    (hf : c.find? kind name = some f) : f.name = some name ∧ f.Written past s kind := by
  cases kind with
  | instances => exact h.findMethod hf
  | classes => exact h.findClassMethod hf

theorem Value.Made.class {v : Value} (h : v.Made past s) {id : ObjectId} {c : Class}
    (hv : v.object? = some (id, c, kind)) : c.Made past s := by
  cases v with
  | instanceOf found type =>
    cases hv
    exact h.1
  | classValue type =>
    cases hv
    exact h
  | _ => cases hv

theorem Value.answers_of_object {v : Value} {id : ObjectId} {c : Class}
    (hv : v.object? = some (id, c, kind)) : v.Answers kind := by
  cases v <;> cases hv <;> trivial

end

end LoxLang
