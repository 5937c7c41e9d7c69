import LoxLang.Proofs.Evaluation.Variables

/-!
# Calls and classes

A body is run in a frame of its own and the frame before is put back however the run ends. What
`super` finds lies where the text says, an initializer finds the object it sets up, and a class
is sound where its methods are.
-/

namespace LoxLang

variable {known : Site → Prop} {c : Chronicle} {α : Type}

/-! ## Another current frame -/

/-- A scene with another current frame. -/
def Scene.withCurrent (s : Scene) (frame : Option FrameId) : Scene :=
  ⟨{ s.machine with current := frame }, s.records⟩

theorem keeps_withCurrent (s : Scene) (frame : Option FrameId) :
    s.Keeps none (s.withCurrent frame) :=
  ⟨fun _ r hr => ⟨r, hr, rfl, List.prefix_rfl, fun _ => rfl⟩, fun _ _ _ => rfl, fun _ _ hr _ => hr⟩

theorem stores_withCurrent {s : Scene} {frame : Option FrameId} {v : Value}
    (hv : (s.withCurrent frame).machine.Stores v) : s.machine.Stores v := by
  cases hv with
  | global h => exact .global h
  | slot h => exact .slot h
  | field h => exact .field h
  | element h => exact .element h

theorem sound_withCurrent {s : Scene} (sound : s.Sound known) (frame : Option FrameId) :
    (s.withCurrent frame).Sound known where
  recorded := ⟨sound.recorded.size, sound.recorded.values, sound.recorded.names,
    sound.recorded.outward⟩
  agreed := sound.agreed
  stored v hv := (sound.stored v (stores_withCurrent hv)).keeps (keeps_withCurrent s frame)
  sheltered := sound.sheltered
  superclasses := sound.superclasses

theorem Chronicle.Stopped.withCurrent {stop : Stop} (h : c.Stopped known stop)
    (frame : Option FrameId) :
    Chronicle.Stopped known stop ⟨c.scene.withCurrent frame, c.steps⟩ := by
  cases h with
  | elsewhere sound cause =>
    exact .elsewhere ⟨sound_withCurrent sound.scene frame, sound.steps⟩ cause
  | missing sound good missing =>
    exact .missing ⟨sound_withCurrent sound.scene frame, sound.steps⟩ good missing

/-- The scene at the start of the code that a new frame is for. -/
theorem Scene.Framed.at {s s' : Scene} {record : Record} {outer : Option FrameId}
    (h : s.Framed record outer s') {p : Position} (hmatches : s.Matches outer p) :
    (s'.withCurrent (some s.machine.frames.next)).At (p.enter record.region record.names) where
  reached := by
    refine ⟨⟨record, h.record, rfl, List.prefix_rfl⟩, ?_⟩
    show Scene.Matches _ (s'.machine.frames.outer? s.machine.frames.next) p
    rw [h.outer]
    exact (hmatches.keeps h.later.toKeeps).keeps (keeps_withCurrent s' _)
  exact := by
    rintro _ ⟨⟩ _ ⟨⟩ r hr
    have hrecord : r = record := by
      have hr' : s'.records[s.machine.frames.next]? = some r := hr
      rw [h.record] at hr'
      exact (Option.some.inj hr').symm
    rw [hrecord]

theorem ensures_within {body : Watch α} {frame : FrameId} {Q : α → Chronicle → Prop}
    {E : Stop → Chronicle → Prop} :
    Ensures (Watch.within frame body) c Q E ↔
      Ensures body ⟨c.scene.withCurrent (some frame), c.steps⟩
        (fun a c' => Q a ⟨c'.scene.withCurrent c.scene.machine.current, c'.steps⟩)
        fun stop c' => E stop ⟨c'.scene.withCurrent c.scene.machine.current, c'.steps⟩ := by
  unfold Ensures Watch.within Scene.withCurrent
  cases body ⟨⟨{ c.scene.machine with current := some frame }, c.scene.records⟩, c.steps⟩ <;>
    exact Iff.rfl

/-- Code that runs in a new frame. To what is outside, no frame grows. -/
theorem Steady.scoped {make : Watch FrameId} {body : Watch α} {record : Record}
    {outer : Option FrameId} {result : α → Scene → Prop}
    (h : Steady known none make c
      fun frame s => frame = c.scene.machine.frames.next ∧ c.scene.Framed record outer s)
    (h' : ∀ c' : Chronicle, c'.Sound known → c.scene.Framed record outer c'.scene →
      Steady known (some c.scene.machine.frames.next) body
        ⟨c'.scene.withCurrent (some c.scene.machine.frames.next), c'.steps⟩ result)
    (stable : ∀ a s s', Scene.Keeps none s s' → result a s → result a s') :
    Steady known none (make >>= fun frame => Watch.within frame body) c result := by
  refine Ensures.bind h ?_
  rintro frame c' ⟨sound, later, rfl, framed⟩
  refine ensures_within.mpr (Ensures.mono (h' c' sound framed) ?_ ?_)
  · intro a c'' ⟨sound', later', hresult⟩
    have hrestored := keeps_withCurrent c''.scene c'.scene.machine.current
    have hstays : c.scene.Stays (c''.scene.withCurrent c'.scene.machine.current) :=
      ⟨later.current, later'.bindings.trans later.bindings⟩
    refine ⟨⟨sound_withCurrent sound'.scene _, sound'.steps⟩, ⟨?_, hstays⟩,
      stable _ _ _ hrestored hresult⟩
    have hinside := (keeps_withCurrent c'.scene (some c.scene.machine.frames.next)).weaken
      (some c.scene.machine.frames.next)
    exact (later.toKeeps.trans_new (hinside.trans later'.toKeeps) framed.new).trans hrestored
  · intro stop c'' ⟨stopped, stays⟩
    exact ⟨stopped.withCurrent _, later.current, stays.bindings.trans later.bindings⟩

/-! ## Initializers and `super` -/

/-- How control leaves a statement, with a sound value. -/
def Completion.Sound (known : Site → Prop) (s : Scene) : Completion → Prop
  | .returned value => value.Sound known s
  | _ => True

theorem Completion.Sound.keeps {s s' : Scene} {growing : Option FrameId} {completion : Completion}
    (h : completion.Sound known s) (keeps : s.Keeps growing s') : completion.Sound known s' := by
  cases completion with
  | returned value => exact Value.Sound.keeps h keeps
  | _ => trivial

/-- An initializer finds the object that it sets up. -/
theorem quiet_callResult {s : Scene} {f : Closure} (line : Nat) {completion : Completion}
    {new : Value → Prop} (sound : s.Sound known) (hf : f.Sound known s)
    (hcompletion : completion.Sound known s) :
    Quiet new (Evaluation.callResult f line completion) s.machine (·.Sound known s) := by
  unfold Evaluation.callResult
  split
  · next hinit =>
    obtain ⟨p, hmatches, -, -, -, hreceiver⟩ := hf
    obtain ⟨outer, rfl⟩ := hreceiver hinit
    cases hframe : f.frame with
    | none =>
      rw [hframe] at hmatches
      exact hmatches.elim
    | some id =>
      rw [hframe] at hmatches
      obtain ⟨frame, hholder⟩ := sound.recorded.holder hmatches 0 0 rfl
        (Nat.succ_pos 0)
      exact quiet_slotValue sound.stored hholder
  · split
    · exact quiet_pure hcompletion
    · exact quiet_pure trivial

/-- What `super` denotes at a position: the slot of a frame that holds a class, and that of the
object in the frame just inside. -/
structure Scene.Super (s : Scene) (id : RefId) (depth : Nat) (frame superclass receiver : FrameId) :
    Prop where
  bound : s.machine.bindings[id]? = some ⟨depth + 1, 0⟩
  current : s.machine.current = some frame
  outer : s.machine.frames.holder frame (depth + 1) 0 = .ok superclass
  inner : s.machine.frames.holder frame depth 0 = .ok receiver
  extended : ∃ k : Class, (s.machine.frames.values superclass).getD 0 .nil = .classValue k

/-- Where `super` stands, the frames of the superclass and of the object are there. -/
theorem Scene.At.super {s : Scene} {p : Position} (sound : s.Sound known) (here : s.At p)
    (formed : p.Formed) {id : RefId} {line : Nat} {name : Name}
    (site : known ⟨p, .evaluating (.super id line name)⟩) :
    ∃ depth frame superclass receiver, s.Super id depth frame superclass receiver := by
  have href : (Moment.evaluating (.super id line name)).reference? =
      some ⟨id, ⟨superName, line⟩⟩ := rfl
  obtain ⟨b, hlookup⟩ := Option.isSome_iff_exists.mp (sound.sheltered _ site).provides.lookup
  have hb : s.machine.bindings[id]? = some b := (sound.agreed _ site _ href).trans hlookup
  obtain ⟨frame, hframe⟩ := here.current sound site href hb
  have hreached := here.reached
  rw [hframe] at hreached
  obtain ⟨depth, rfl, ⟨inner, hinner, -, hthis⟩, outer, houter, hregion, hsuper⟩ :=
    formed.lookup_super hlookup
  obtain ⟨superclass, hsuperclass⟩ := sound.recorded.holder hreached (depth + 1) 0 houter
    (by rw [hsuper]; exact Nat.succ_pos 0)
  obtain ⟨receiver, hreceiver⟩ := sound.recorded.holder hreached depth 0 hinner
    (by rw [hthis]; exact Nat.succ_pos 0)
  refine ⟨depth, frame, superclass, receiver, hb, hframe, hsuperclass, hreceiver, ?_⟩
  obtain ⟨hreach, hslot⟩ := (Frames.holder_eq_ok _).mp hsuperclass
  obtain ⟨found, r, hfound, hr, hr', -⟩ := hreached.outward houter
  rw [hreach, Option.some.injEq] at hfound
  subst hfound
  refine sound.superclasses superclass r hr (hr'.trans hregion) _ ?_
  rw [Array.getD_eq_getD_getElem?, Array.getElem?_eq_getElem hslot, ← sound.recorded.values _ r hr]
  exact Array.mem_toList_iff.mpr (Array.getElem_mem hslot)

/-- What `super` finds is what the superclass has for objects of the kind of the present one. -/
theorem superTarget_eq {s : Scene} {id : RefId} {depth : Nat}
    {frame superclass receiver : FrameId} (h : s.Super id depth frame superclass receiver)
    {k : Class} (hk : (s.machine.frames.values superclass).getD 0 .nil = .classValue k)
    {object : Value} (hobject : (s.machine.frames.values receiver).getD 0 .nil = object)
    (line : Nat) (name : Name) :
    superTarget id line name s.machine =
      .ok (object, k.find? object.kind name.text) s.machine := by
  unfold superTarget boundHere? slotValue
  simp only [bind, EStateM.bind, h.bound, h.current, Frames.get_eq_ok _ h.outer, hk,
    Frames.get_eq_ok _ h.inner, hobject]
  cases object <;> rfl

/-- What `super` finds is sound. -/
theorem quiet_superTarget {s : Scene} {p : Position} (sound : s.Sound known) (here : s.At p)
    (formed : p.Formed) {id : RefId} {line : Nat} {name : Name}
    (site : known ⟨p, .evaluating (.super id line name)⟩) :
    Quiet (·.Sound known s) (superTarget id line name) s.machine
      fun target => target.1.Sound known s ∧
        ∀ f, target.2 = some f → f.SoundMethod known s := by
  obtain ⟨depth, frame, superclass, receiver, hsuper⟩ := Scene.At.super sound here formed site
  obtain ⟨k, hk⟩ := hsuper.extended
  have hclass : Value.Sound known s (.classValue k) :=
    hk ▸ sound.stored _ (stores_slot hsuper.outer)
  unfold Quiet Ensures
  rw [superTarget_eq hsuper hk rfl line name]
  exact ⟨.refl _ _, sound.stored _ (stores_slot hsuper.inner),
    fun f hf => Class.Sound.find hclass hf⟩

/-- A method that `super` finds is bound to the object that `this` is. -/
theorem steady_superMethod {p : Position} (sound : c.Sound known) (here : c.scene.At p)
    (formed : p.Formed) {id : RefId} {line : Nat} {name : Name}
    (site : Moment.Known known p (.evaluating (.super id line name))) :
    Steady known none
      (Watch.mark (.evaluating (.super id line name)) >>= fun _ => Watch.superMethod id line name) c
      fun v s => v.Sound known s := by
  refine steady_marked ?_
  obtain ⟨depth, current, superclass, receiver, hsuper⟩ :=
    Scene.At.super sound.scene here formed site.site
  have sound' := sound.mark_found site formed here rfl
    (found_of_holder hsuper.bound hsuper.current hsuper.outer)
  refine (steady_quietly sound' (quiet_superTarget sound.scene here formed site.site)).bind ?_
  rintro ⟨receiver, found⟩ c' sound'' later ⟨hreceiver, hfound⟩
  exact steady_bindFound name sound'' (fun f hf => (hfound f hf).keeps later.toKeeps)
    (hreceiver.keeps later.toKeeps)

/-! ## Classes -/

/-- A new class is sound in every scene in which its parts are. -/
theorem quiet_newClass (known : Site → Prop) {new : Value → Prop} {m : Machine} (name : Name)
    (extended : Option Class) (composed : Methods) (frame : Option FrameId)
    (methods classMethods : List NamedFunction) :
    Quiet new (newClass name extended composed frame methods classMethods) m fun k =>
      ∀ s : Scene, (∀ e, extended = some e → e.Sound known s) → composed.Sound known s →
        (∀ f ∈ methods, ∀ initializer, (f.closure frame initializer).SoundMethod known s) →
        (∀ f ∈ classMethods, ∀ initializer, (f.closure frame initializer).SoundMethod known s) →
        k.Sound known s := by
  refine quiet_newObject.bind fun _ _ _ _ => quiet_newObject.bind fun _ _ _ _ => quiet_pure ?_
  intro s hextended hcomposed hmethods hclassMethods
  refine .mk hextended (Methods.All.addBody hcomposed fun f hf => hmethods f hf _) ?_
  rintro _ ⟨⟩
  refine .mk ?_ (all_classMethodTable fun f hf => hclassMethods f hf false) (by simp)
  intro e he
  obtain ⟨k, hk, hmeta⟩ := Option.bind_eq_some_iff.mp he
  exact (hextended k hk).metaclass hmeta

end LoxLang
