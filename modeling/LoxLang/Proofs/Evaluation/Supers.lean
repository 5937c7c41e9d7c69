import LoxLang.Proofs.Evaluation.Making

/-!
# Methods of subclasses

Where `super` is evaluated, the frames around are those of a call of a method, of the object that
the method is bound to, and of the superclass that its class was declared with
(`Scene.InMethod`). So what `super` finds depends on these two alone: a method of the superclass
for objects of the kind of that one, bound to that one.
-/

namespace LoxLang

/-- The methods that are declared for objects of a kind. -/
def ClassDeclaration.methodsFor (d : ClassDeclaration) : Kind → List NamedFunction
  | .instances => d.methods
  | .classes => d.classMethods

/-- A scene at a position in the body of a method, between which and the position there are only
blocks and functions: some frames outward is that of a call of the method, around it the one that
binds it to an object, and around that the one of the superclass. The scopes around the body are
`outer`. -/
structure Scene.InMethod (s : Scene) (p : Position) (method : Function) (object : Value)
    (superclass : FrameId) (k : Class) (inner outer : Position) : Prop where
  explicit : ∀ layer ∈ inner, ¬layer.region.Implicit
  body : ∃ call : Layer, p = inner ++ call :: outer ∧ call.region = .function method
  around : ∃ (this super : Layer) (beyond : Position), outer = this :: super :: beyond ∧
    this.region = .receiver ∧ super.region = .superclass
  frames : ∃ current call this r, s.machine.current = some current ∧
    s.machine.frames.outward? current inner.length = some call ∧
    s.machine.frames.outward? current (inner.length + 1) = some this ∧
    s.machine.frames.outward? current (inner.length + 2) = some superclass ∧
    s.records[call]? = some r ∧ r.region = .function method ∧
    s.machine.frames.values this = #[object] ∧
    s.machine.frames.values superclass = #[.classValue k]

section

variable {past : Step → Prop} {known : Site → Prop} {s : Scene} {p : Position}

/-- A method whose frame is that of a superclass was declared in a subclass of it. -/
theorem Closure.Written.derived {kind : Kind} {f : Closure} (h : f.Written past s kind)
    {frame : FrameId} {r : Record} (hframe : f.frame = some frame)
    (hr : s.records[frame]? = some r) (hregion : r.region = .superclass) :
    ∃ (d : ClassDeclaration) (g : NamedFunction) (k : Class), d.Done past s ∧ d.extended = some k ∧
      g ∈ d.methodsFor kind ∧ f.function = g.function ∧ frame = d.scene.machine.frames.next ∧
      r = Watch.superclassRecord k := by
  -- Only the methods of a class that extends another are closed over a frame that holds `super`.
  have hclass : ∀ (d : ClassDeclaration) (g : NamedFunction), d.Done past s → d.frame = some frame →
      g ∈ d.methodsFor kind → f.function = g.function →
      ∃ (d : ClassDeclaration) (g : NamedFunction) (k : Class), d.Done past s ∧
        d.extended = some k ∧ g ∈ d.methodsFor kind ∧ f.function = g.function ∧
        frame = d.scene.machine.frames.next ∧ r = Watch.superclassRecord k := by
    intro d g done hd mem hfunction
    unfold ClassDeclaration.frame at hd
    cases hextended : d.extended with
    | none =>
      rw [hextended] at hd
      exact absurd (hregion ▸ trivial) (done.current.explicit hd hr)
    | some k =>
      rw [hextended, Option.isSome_some, if_pos rfl, Option.some.injEq] at hd
      subst hd
      rw [done.record k hextended, Option.some.injEq] at hr
      exact ⟨d, g, k, done, hextended, mem, hfunction, rfl, hr.symm⟩
  cases h with
  | method done mem => exact hclass _ _ done hframe mem rfl
  | classMethod done mem => exact hclass _ _ done hframe mem rfl
  | traitMethod done mem => exact absurd (hregion ▸ trivial) (done.current.explicit hframe hr)

/-- A call in a frame of `this` is that of a method bound to the object there. -/
theorem Scene.Placed.bound {call this : FrameId} {r r' : Record} (h : s.Placed past call r)
    (explicit : ¬r.region.Implicit) (houter : s.machine.frames.outer? call = some this)
    (hr : s.records[this]? = some r') (hregion : r'.region = .receiver) :
    ∃ (kind : Kind) (method : Closure) (object : Value), method.Written past s kind ∧
      object.Answers kind ∧ r.region = .function method.function ∧
      r' = Watch.receiverRecord object ∧ s.machine.frames.outer? this = method.frame := by
  unfold Scene.Placed at h
  cases hkind : r.region with
  | receiver => rw [hkind] at explicit; exact absurd trivial explicit
  | superclass => rw [hkind] at explicit; exact absurd trivial explicit
  | block body =>
    simp only [hkind] at h
    exact absurd (hregion ▸ trivial) (h.explicit houter hr)
  | function g =>
    simp only [hkind] at h
    obtain ⟨f, made, rfl, hframe⟩ := h
    rw [houter] at hframe
    cases made with
    | plain _ plain => exact absurd (hregion ▸ trivial) (plain.explicit hframe.symm hr)
    | bound written answers record outer =>
      cases hframe
      rw [hr, Option.some.injEq] at record
      exact ⟨_, _, _, written, answers, rfl, record, outer⟩

/-- Where `super` is evaluated, the scene is in a method that was declared in a subclass. -/
theorem Scene.Made.inMethod (made : s.Made past) (sound : s.Sound known) (here : s.At p)
    (formed : p.Formed) (derived : p.Derived) :
    ∃ (d : ClassDeclaration) (g : NamedFunction) (k : Class) (kind : Kind) (object : Value)
      (inner outer : Position), d.Done past s ∧ d.extended = some k ∧ g ∈ d.methodsFor kind ∧
      object.Answers kind ∧
      s.InMethod p g.function object d.scene.machine.frames.next k inner outer ∧
      p.lookup? superName = some ⟨inner.length + 2, 0⟩ := by
  obtain ⟨before, this, super, beyond, rfl, explicit, hthis, hsuper, hname⟩ := derived
  have hlookup := formed.lookup_derived explicit hthis hname
  obtain ⟨id, hcurrent⟩ : ∃ id, s.machine.current = some id := by
    have hreached := here.reached
    cases hcurrent : s.machine.current with
    | some id => exact ⟨id, rfl⟩
    | none =>
      rw [hcurrent] at hreached
      cases before <;> exact hreached.elim
  have hreached := here.reached
  rw [hcurrent] at hreached
  obtain ⟨thisFrame, thisRecord, hthisFrame, hthisRecord, hthisRegion, -⟩ :=
    hreached.outward (show (before ++ this :: super :: beyond)[before.length]? = some this by simp)
  obtain ⟨superFrame, superRecord, hsuperFrame, hsuperRecord, hsuperRegion, -⟩ :=
    hreached.outward
      (show (before ++ this :: super :: beyond)[before.length + 1]? = some super by simp)
  rcases List.eq_nil_or_concat before with rfl | ⟨inner, call, rfl⟩
  · -- The current frame is none of `this`.
    cases hthisFrame
    have hplain := made.current.explicit hcurrent hthisRecord
    rw [hthisRegion, hthis] at hplain
    exact absurd trivial hplain
  -- The frame just within that of `this` is the one of a call, and tells which method was called.
  · rw [List.concat_eq_append] at *
    simp only [List.length_append, List.length_singleton] at hthisFrame hsuperFrame hlookup
    obtain ⟨callFrame, callRecord, hcallFrame, hcallRecord, hcallRegion, -⟩ :=
      hreached.outward (show (inner ++ [call] ++ this :: super :: beyond)[inner.length]? = some call
        by simp)
    have hcall : s.machine.frames.outer? callFrame = some thisFrame := by
      rw [Frames.outward?_succ, hcallFrame] at hthisFrame
      exact hthisFrame
    have hinner : s.machine.frames.outer? thisFrame = some superFrame := by
      rw [Frames.outward?_succ, hthisFrame] at hsuperFrame
      exact hsuperFrame
    obtain ⟨kind, method, object, written, answers, hfunction, rfl, hmethod⟩ :=
      (made.frames callFrame callRecord hcallRecord).bound
        (hcallRegion ▸ explicit call (by simp)) hcall hthisRecord (hthisRegion.trans hthis)
    obtain ⟨d, g, k, done, hextended, mem, hg, rfl, rfl⟩ :=
      written.derived (hmethod.symm.trans hinner) hsuperRecord (hsuperRegion.trans hsuper)
    have hthisValues := sound.recorded.values thisFrame _ hthisRecord
    have hsuperValues := sound.recorded.values _ _ hsuperRecord
    refine ⟨d, g, k, kind, object, inner, this :: super :: beyond, done, hextended, mem, answers,
      ?_, hlookup⟩
    refine ⟨fun layer hlayer => explicit layer (List.mem_append_left _ hlayer), ?_, ?_, ?_⟩
    · exact ⟨call, by simp, hcallRegion ▸ hg ▸ hfunction⟩
    · exact ⟨this, super, beyond, rfl, hthis, hsuper⟩
    · exact ⟨id, callFrame, thisFrame, callRecord, hcurrent, hcallFrame, hthisFrame, hsuperFrame,
        hcallRecord, hg ▸ hfunction, Array.toList_inj.mp hthisValues,
        Array.toList_inj.mp hsuperValues⟩

/-- In a method of a subclass, `super` finds what the superclass has for its object. -/
theorem Scene.InMethod.superTarget {method : Function} {object : Value} {superclass : FrameId}
    {k : Class} {inner outer : Position} (h : s.InMethod p method object superclass k inner outer)
    {id : RefId} (bound : s.machine.bindings[id]? = some ⟨inner.length + 2, 0⟩) (line : Nat)
    (name : Name) :
    LoxLang.superTarget id line name s.machine =
      .ok (object, k.find? object.kind name.text) s.machine := by
  obtain ⟨current, -, this, -, hcurrent, -, hthis, hsuper, -, -, hobject, hclass⟩ := h.frames
  have hfound : s.Super id (inner.length + 1) current superclass this :=
    { bound := bound
      current := hcurrent
      outer := (Frames.holder_eq_ok _).mpr ⟨hsuper, by rw [hclass]; exact Nat.zero_lt_one⟩
      inner := (Frames.holder_eq_ok _).mpr ⟨hthis, by rw [hobject]; exact Nat.zero_lt_one⟩
      extended := ⟨k, by rw [hclass]; rfl⟩ }
  exact superTarget_eq hfound (by rw [hclass]; rfl) (by rw [hobject]; rfl) line name

theorem Scene.Made.superTarget (made : s.Made past) (sound : s.Sound known) (here : s.At p)
    (formed : p.Formed) {id : RefId} {line : Nat} {name : Name}
    (site : known ⟨p, .evaluating (.super id line name)⟩) :
    ∃ (d : ClassDeclaration) (g : NamedFunction) (k : Class) (kind : Kind) (object : Value)
      (inner outer : Position), d.Done past s ∧ d.extended = some k ∧ g ∈ d.methodsFor kind ∧
      object.Answers kind ∧
      s.InMethod p g.function object d.scene.machine.frames.next k inner outer ∧
      LoxLang.superTarget id line name s.machine =
        .ok (object, k.find? kind name.text) s.machine := by
  obtain ⟨d, g, k, kind, object, inner, outer, done, hextended, mem, answers, inMethod, hlookup⟩ :=
    made.inMethod sound here formed (sound.sheltered _ site)
  have hbound := (sound.agreed _ site ⟨id, ⟨superName, line⟩⟩ rfl).trans hlookup
  refine ⟨d, g, k, kind, object, inner, outer, done, hextended, mem, answers, inMethod, ?_⟩
  rw [← answers.kind_eq]
  exact inMethod.superTarget hbound line name

/-- What `super` finds is bound to the object of the method around. -/
theorem making_superMethod {c : Chronicle} (made : c.Made past) (sound : c.scene.Sound known)
    (here : c.scene.At p) (formed : p.Formed) {id : RefId} {line : Nat} {name : Name}
    (site : known ⟨p, .evaluating (.super id line name)⟩) :
    Making past (Watch.superMethod id line name) c
      fun v c' => v.Made (c'.Past past) c'.scene := by
  obtain ⟨d, g, k, kind, object, inner, outer, done, hextended, mem, answers, inMethod, htarget⟩ :=
    made.scene.superTarget sound here formed site
  obtain ⟨-, -, this, -, -, -, -, -, -, -, hobject, hclass⟩ := inMethod.frames
  have hfound : Ensures (superTarget id line name) c.scene.machine
      (fun target m => m = c.scene.machine ∧ target = (object, k.find? kind name.text))
      fun _ m => m = c.scene.machine := by
    unfold Ensures
    rw [htarget]
    exact ⟨rfl, rfl⟩
  refine (making_unchanged made hfound).next ?_
  rintro _ c made' - ⟨rfl, rfl⟩
  -- Both the object and the superclass are stored in frames, and what is stored has been made.
  have hstored : ∀ (id : FrameId) (v : Value), c.scene.machine.frames.values id = #[v] →
      v.Made (c.Past past) c.scene := by
    intro id v hv
    have hmem : v ∈ c.scene.machine.frames.values id := by
      rw [hv]
      exact Array.mem_singleton.mpr rfl
    exact made.scene.stored v (.slot hmem)
  have hk : k.Made (c.Past past) c.scene := hstored _ (.classValue k) hclass
  exact making_bindFound name made' sound.recorded (fun f hf => (hk.find hf).2) answers
    (hstored this object hobject)

end

end LoxLang
