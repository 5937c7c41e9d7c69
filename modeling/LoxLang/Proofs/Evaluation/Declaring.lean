import LoxLang.Proofs.Evaluation.Supers

/-!
# Declaring classes and traits

A class or trait that is declared has its methods from the text and from traits that were made,
and refers to the frame that the declaration makes for a superclass. The declaration is a past step
by then.
-/

namespace LoxLang

variable {past : Step → Prop} {c : Chronicle}

/-! ## Heads -/

theorem making_readHead (made : c.Made past) (ref : Reference) :
    Making past (Watch.lookUp ref) c
      fun v c' => (v.Made (c'.Past past) c'.scene ∧ c'.scene = c.scene) ∧
        Run.lookUp ref.id ref.name.text ref.name.line c.scene.machine = .ok v c'.scene.machine := by
  have hread : Making past (Watch.lookUp ref) c
      fun v c' => v.Made (c'.Past past) c'.scene ∧ c'.scene = c.scene := by
    refine Making.mark made fun made' => (making_lookUp made' _ _ _).mono ?_
    rintro v c' - ⟨hv, rfl⟩
    exact ⟨hv, rfl⟩
  exact hread.erased (Watch.erases_lookUp ref)

theorem making_addTraits (traits : List Reference) {composed : Methods} (made : c.Made past)
    (plain : ∀ ref ∈ traits, ref.Plain)
    (hcomposed : composed.Written (c.Past past) c.scene .instances) :
    Making past (Watch.addTraits traits composed) c
      fun table c' => table.Written (c'.Past past) c'.scene .instances ∧ c'.scene = c.scene := by
  induction traits generalizing c composed with
  | nil => exact making_pure made ⟨hcomposed, rfl⟩
  | cons ref rest ih =>
    refine (making_readHead made ref).next ?_
    rintro v c₁ made₁ onward₁ ⟨⟨hv, hscene⟩, -⟩
    refine (making_inert made₁ (inert_traitOf (plain ref List.mem_cons_self) v)).next ?_
    rintro t c₁ made₁ - ⟨⟨id, rfl⟩, rfl⟩
    have hmethods := Trait.Made.methods hv
    refine (making_inert made₁ (inert_addMethods ref.name.line hmethods _
      (hcomposed.later onward₁.more onward₁.retains))).next ?_
    rintro table c₁ made₁ - ⟨htable, rfl⟩
    refine (ih made₁ (fun other h => plain other (List.mem_cons_of_mem ref h)) htable).mono ?_
    exact fun _ _ _ ⟨hrest, hsame⟩ => ⟨hrest, hsame.trans hscene⟩

theorem making_composeTraits (traits : List Reference) (methods : List NamedFunction)
    (made : c.Made past) (plain : ∀ ref ∈ traits, ref.Plain) :
    Making past (Watch.composeTraits traits methods) c
      fun table c' => (table.Written (c'.Past past) c'.scene .instances ∧ c'.scene = c.scene) ∧
        composeTraits traits methods c.scene.machine = .ok table c'.scene.machine := by
  have hcompose : Making past (Watch.composeTraits traits methods) c
      fun table c' => table.Written (c'.Past past) c'.scene .instances ∧ c'.scene = c.scene := by
    refine (making_addTraits traits made plain (Methods.all_empty _)).next ?_
    rintro table c₁ made₁ - ⟨htable, hscene⟩
    refine (making_inert made₁ (inert_checkProvided table methods)).next ?_
    rintro - c₁ made₁ - ⟨-, rfl⟩
    exact making_pure made₁ ⟨htable, hscene⟩
  exact hcompose.erased (Watch.erases_composeTraits traits methods)

/-- The superclass of a class that has one. -/
theorem making_superclass (ref : Reference) {v : Value} (made : c.Made past)
    (hv : v.Made (c.Past past) c.scene) :
    Making past (some <$> Watch.quietly (superclassOf ref v)) c
      fun extended c' => c' = c ∧ extended.isSome ∧
        ∀ k, extended = some k → k.Made (c.Past past) c.scene ∧ v = .classValue k := by
  rw [map_eq_pure_bind]
  refine (making_inert made (inert_superclassOf ref v)).next ?_
  rintro k c' made' - ⟨rfl, rfl⟩
  refine making_pure made' ⟨rfl, rfl, ?_⟩
  rintro _ ⟨⟩
  exact ⟨hv, rfl⟩

/-! ## Bodies -/

theorem newClass_eq (name : Name) (extended : Option Class) (composed : Methods)
    (frame : Option FrameId) (methods classMethods : List NamedFunction) (m : Machine) :
    newClass name extended composed frame methods classMethods m =
      .ok
        (.mk (m.objects.size + 1) name.text extended (addBody composed methods frame)
          (some (.mk m.objects.size (name.text ++ " metaclass") (extended.bind Class.metaclass)
            (classMethodTable classMethods frame) none)))
        { m with objects := (m.objects.push Dictionary.empty).push Dictionary.empty } := by
  rw [← Array.size_push Dictionary.empty]
  rfl

theorem methodFrame_eq (extended : Option Class) (m : Machine) :
    methodFrame extended m =
      .ok (if extended.isSome then some m.frames.next else m.current)
        { m with
          frames :=
            match extended with
            | some k => m.frames.framed m.current [.classValue k]
            | none => m.frames } := by
  cases extended <;> rfl

/-- The machine in which a declaration that succeeds puts the class under its name. -/
def ClassDeclaration.machine (d : ClassDeclaration) : Machine :=
  { d.scene.machine with
    frames :=
      match d.extended with
      | some k => d.scene.machine.frames.framed d.scene.machine.current [.classValue k]
      | none => d.scene.machine.frames
    objects := (d.scene.machine.objects.push Dictionary.empty).push Dictionary.empty }

/-- A declaration that succeeds declares the class that is said. -/
theorem ClassDeclaration.Succeeds.declares {d : ClassDeclaration} (h : d.Succeeds) :
    declareClass d.name d.superclass d.traits d.methods d.classMethods d.scene.machine =
      Run.declare d.name.text (.classValue d.declared) d.machine := by
  -- With or without a superclass the rest of the declaration is the same.
  have hbody : (do
      let composed ← composeTraits d.traits d.methods
      let frame ← methodFrame d.extended
      let declared ← newClass d.name d.extended composed frame d.methods d.classMethods
      Run.declare d.name.text (.classValue declared)) d.scene.machine =
        Run.declare d.name.text (.classValue d.declared) d.machine := by
    simp only [bind, EStateM.bind, h.composed, methodFrame_eq, newClass_eq]
    rfl
  have hderived := h.derived
  unfold declareClass
  cases hsuperclass : d.superclass with
  | none =>
    rw [hsuperclass, Option.isSome_none, Option.isSome_eq_false_iff, Option.isNone_iff_eq_none]
      at hderived
    rw [hderived] at hbody
    exact hbody
  | some ref =>
    rw [hsuperclass, Option.isSome_some, Option.isSome_iff_exists] at hderived
    obtain ⟨k, hk⟩ := hderived
    rw [hk] at hbody
    have hread := h.extended ref k hsuperclass hk
    rw [← hbody]
    simp only [bind, EStateM.bind, hread, superclassOf, Functor.map, EStateM.map, pure,
      EStateM.pure]

/-- The frame of the methods of a class. -/
theorem making_methodFrame (made : c.Made past) (recorded : c.scene.Recorded)
    {extended : Option Class} (hextended : ∀ k, extended = some k → k.Made (c.Past past) c.scene) :
    Making past (Watch.methodFrame extended) c
      fun frame c' =>
        frame = (if extended.isSome then some c.scene.machine.frames.next
          else c.scene.machine.current) ∧
        c'.scene.machine.objects = c.scene.machine.objects ∧
        ∀ k, extended = some k →
          c'.scene.records[c.scene.machine.frames.next]? = some (Watch.superclassRecord k) ∧
          c'.scene.machine.frames.outer? c.scene.machine.frames.next =
            c.scene.machine.current := by
  cases extended with
  | none =>
    have hcurrent : Ensures (methodFrame none) c.scene.machine
        (fun frame m => m = c.scene.machine ∧ frame = c.scene.machine.current)
        fun _ m => m = c.scene.machine := ⟨rfl, rfl⟩
    refine (making_unchanged made hcurrent).mono ?_
    rintro _ c' - ⟨rfl, rfl⟩
    exact ⟨rfl, rfl, nofun⟩
  | some k =>
    have hk : Value.Made (c.Past past) c.scene (.classValue k) := hextended k rfl
    have hframing := making_framing made recorded (Watch.superclassRecord k)
      (by simpa [Watch.superclassRecord, Record.values] using hk)
      (fun _ _ _ => trivial) (framing_methodFrame k c.scene.machine)
    -- What is watched comes to what is run, which tells that a frame is all that is new.
    refine (hframing.erased (Watch.erases_framing _ _)).mono ?_
    rintro _ c' - ⟨⟨rfl, framed⟩, hrun⟩
    have hmachine := (EStateM.Result.ok.inj hrun).2
    have hobjects : c'.scene.machine.objects = c.scene.machine.objects := by rw [← hmachine]
    refine ⟨rfl, hobjects, ?_⟩
    rintro _ ⟨⟩
    exact ⟨framed.record, framed.outer⟩

/-- A class that is declared was made: its declaration is a past step. -/
theorem making_declareMethods {p : Position} {name : Name} {superclass : Option Reference}
    {traits : List Reference} {methods classMethods : List NamedFunction}
    {extended : Option Class} {s : Scene} (made : c.Made past) (ready : c.Ready known p)
    (headsPlain : ∀ ref ∈ traits, ref.Plain)
    (heads : ∀ x ∈ readSites p traits, known x)
    (here : c.scene = s)
    (hpast : c.Past past
      ⟨.executing (.classDecl name superclass traits methods classMethods), s⟩)
    (derived : extended.isSome = superclass.isSome)
    (hextended : ∀ k, extended = some k → k.Made (c.Past past) c.scene ∧
      ∀ ref, superclass = some ref →
        Run.lookUp ref.id ref.name.text ref.name.line c.scene.machine =
          .ok (.classValue k) c.scene.machine)
    (extendedSound : ∀ k, extended = some k → k.Sound known c.scene) :
    Making past
      (do
        let composed ← Watch.composeTraits traits methods
        let frame ← Watch.methodFrame extended
        let declared ← Watch.quietly (newClass name extended composed frame methods classMethods)
        Watch.declare name.text (.classValue declared)) c
      fun _ _ => True := by
  refine (making_composeTraits traits methods made headsPlain).bind
    (steady_composeTraits traits methods ready.sound ready.formed ready.here headsPlain heads) ?_
  rintro composed c₁ made₁ onward₁ ⟨⟨hcomposed, hscene⟩, hrun⟩ sound₁ later₁ -
  rw [← hscene] at hrun hextended
  let d : ClassDeclaration :=
    ⟨c₁.scene, name, superclass, traits, methods, classMethods, extended, composed⟩
  -- The declaration has been told as a step before its traits were composed.
  have hstep : c₁.Past past d.step := by
    refine onward₁.more _ ?_
    show c.Past past ⟨_, c₁.scene⟩
    rwa [hscene, here]
  have hsuperclass : ∀ k, extended = some k → k.Made (c₁.Past past) c₁.scene :=
    fun k hk => (hextended k hk).1.later onward₁.more (.refl _)
  refine (making_methodFrame made₁ sound₁.scene.recorded hsuperclass).bind
    (steady_methodFrame sound₁ (ready.here.later later₁).reached
      fun k hk => (extendedSound k hk).keeps later₁.toKeeps) ?_
  rintro frame c₂ made₂ onward₂ ⟨hframe, hobjects, hrecord⟩ sound₂ - -
  refine ((making_quietly made₂ (quiet_newClass (fun _ => True) name extended composed frame methods
    classMethods)).erased (Watch.erases_quietly _)).bind
      (steady_quietly sound₂ (quiet_newClass known name extended composed frame methods
        classMethods)) ?_
  rintro k c₃ made₃ onward₃ ⟨-, hnew⟩ sound₃ - -
  rw [newClass_eq] at hnew
  obtain ⟨hk, hmachine⟩ := EStateM.Result.ok.inj hnew
  -- The class that is made is the one of the declaration, with the number that was free then.
  have hdeclared : k = d.declared := by
    rw [← hk, hframe, hobjects]
    rfl
  have onward : c₁.Onward c₃ := onward₂.trans onward₃
  have hdone : d.Done (c₃.Past past) c₃.scene :=
    { step := onward.more d.step hstep
      succeeds :=
        { derived := derived
          extended := fun ref k hsuper hk => (hextended k hk).2 ref hsuper
          composed := hrun }
      current := made₁.scene.current.retains onward.retains
      record := fun k hk => onward₃.retains.implicit (hrecord k hk).1 trivial
      outer := fun k hk =>
        (onward₃.retains.outer _ _ (hrecord k hk).1).trans (hrecord k hk).2
      objects := by
        rw [← hmachine, hobjects, Array.size_push, Array.size_push]
        exact Nat.lt_succ_self _ }
  have hvalue : (Value.classValue d.declared).Made (c₃.Past past) c₃.scene :=
    Class.Made.mk hdone (hcomposed.later onward.more onward.retains)
      (fun k hk => (hsuperclass k hk).later onward.more onward.retains)
      fun k hk => (hsuperclass k hk).id_lt
  rw [hdeclared]
  exact making_declare made₃ sound₃.scene.recorded hvalue

theorem making_declareClass {p : Position} {name : Name} {superclass : Option Reference}
    {traits : List Reference} {methods classMethods : List NamedFunction}
    (made : c.Made past) (ready : c.Ready known p)
    (code : (Stmt.classDecl name superclass traits methods classMethods).Formed)
    (fits : p.Fits [.classDecl name superclass traits methods classMethods])
    (sites : ∀ x ∈ (Stmt.classDecl name superclass traits methods classMethods).sites p, known x)
    (hpast : c.Past past
      ⟨.executing (.classDecl name superclass traits methods classMethods), c.scene⟩) :
    Making past (Watch.declareClass name superclass traits methods classMethods) c
      fun _ _ => True := by
  obtain ⟨plain, headsPlain, -, -⟩ := code
  obtain ⟨heads, -⟩ := known_of_append (known_of_append (known_of_cons sites).2).1
  have room : ∀ layer ∈ p.head?, layer.declared ++ [name.text] <+: layer.region.names :=
    fits.name rfl
  have ready' : c.Ready known (p.within name.text) :=
    ⟨ready.sound, ready.here.within name.text, ready.formed.within plain room⟩
  unfold Watch.declareClass
  cases superclass with
  | none =>
    exact making_declareMethods made ready' headsPlain heads rfl hpast rfl (by simp) (by simp)
  | some ref =>
    obtain ⟨head, heads⟩ := known_of_cons heads
    refine (making_readHead made ref).bind (steady_readHead ready'.sound ready'.formed ready'.here
      (headsPlain ref List.mem_cons_self) head) ?_
    rintro v c₁ made₁ onward₁ ⟨⟨hv, hscene⟩, hread⟩ sound₁ later₁ hsound
    refine (making_superclass ref made₁ hv).bind (steady_superclass ref sound₁ hsound) ?_
    rintro extended c₁ made₁ - ⟨rfl, hsome, hextended⟩ sound₂ later₂ ⟨-, hextendedSound⟩
    refine making_declareMethods made₁ (ready'.later sound₁ later₁)
      (fun other h => headsPlain other (List.mem_cons_of_mem ref h)) heads hscene
      (onward₁.more _ hpast) hsome (fun k hk => ?_) hextendedSound
    obtain ⟨hmade, rfl⟩ := hextended k hk
    refine ⟨hmade, ?_⟩
    rintro _ ⟨⟩
    rwa [hscene] at hread ⊢

theorem making_declareTrait {p : Position} {name : Name} {traits : List Reference}
    {methods : List NamedFunction} (made : c.Made past) (ready : c.Ready known p)
    (code : (Stmt.traitDecl name traits methods).Formed)
    (fits : p.Fits [.traitDecl name traits methods])
    (sites : ∀ x ∈ (Stmt.traitDecl name traits methods).sites p, known x)
    (hpast : c.Past past ⟨.executing (.traitDecl name traits methods), c.scene⟩) :
    Making past (Watch.declareTrait name traits methods) c fun _ _ => True := by
  obtain ⟨plain, headsPlain, -⟩ := code
  obtain ⟨heads, -⟩ := known_of_append (known_of_cons sites).2
  have room : ∀ layer ∈ p.head?, layer.declared ++ [name.text] <+: layer.region.names :=
    fits.name rfl
  refine (making_composeTraits traits methods made headsPlain).bind
    (steady_composeTraits traits methods ready.sound (ready.formed.within plain room)
      (ready.here.within name.text) headsPlain heads) ?_
  rintro composed c₁ made₁ onward₁ ⟨⟨hcomposed, hscene⟩, hrun⟩ sound₁ later₁ -
  rw [← hscene] at hrun
  let d : TraitDeclaration := ⟨c₁.scene, name, traits, methods, composed⟩
  have hstep : c₁.Past past d.step := by
    refine onward₁.more _ ?_
    show c.Past past ⟨_, c₁.scene⟩
    rwa [hscene]
  refine (making_inert made₁ inert_current).next ?_
  rintro _ c₁ made₁ - ⟨rfl, rfl⟩
  refine (making_quietly made₁ quiet_newIdentity).bind (steady_quietly sound₁ quiet_newIdentity) ?_
  rintro id c₂ made₂ onward - sound₂ - -
  have hdone : d.Done (c₂.Past past) c₂.scene :=
    { step := onward.more d.step hstep
      composed := hrun
      current := made₁.scene.current.retains onward.retains }
  exact making_declare made₂ sound₂.scene.recorded
    ⟨d, hdone, hcomposed.later onward.more onward.retains, rfl⟩

end LoxLang
