import LoxLang.Proofs.Evaluation.Calls

/-!
# The discipline of frames

By induction on the budget, evaluation and execution are steady at every position whose sites
are known: each construct leads from the position of its start to the position behind it. A
block and a call enter the scope that resolution enters there, a declaration that is completed
takes the slot that resolution gave it, and a closure is called at the position of its code.
-/

namespace LoxLang

variable {known : Site → Prop} {c : Chronicle}

/-! ## Positions of a run -/

/-- A sound chronicle whose scene is at a position. -/
structure Chronicle.Ready (known : Site → Prop) (p : Position) (c : Chronicle) : Prop where
  sound : c.Sound known
  here : c.scene.At p
  formed : p.Formed

theorem Chronicle.Ready.later {p : Position} {c' : Chronicle} (h : c.Ready known p)
    (sound : c'.Sound known) (later : c.scene.Later none c'.scene) : c'.Ready known p :=
  ⟨sound, h.here.later later, h.formed⟩

/-- A good step is one from which a run can go on. -/
theorem Step.Good.ready {step : Step} (h : step.Good known) :
    ∃ p, step.moment.Known known p ∧ Chronicle.Ready known p ⟨step.scene, []⟩ := by
  obtain ⟨p, site, formed, here, sound⟩ := h
  exact ⟨p, site, ⟨⟨sound, nofun⟩, here, formed⟩⟩

/-- In the innermost scope of a position there is room for what statements declare. -/
def Position.Fits (p : Position) (body : List Stmt) : Prop :=
  ∀ layer ∈ p.head?, layer.declared ++ declaredNames body <+: layer.region.names

theorem Position.Fits.name {p : Position} {s : Stmt} {rest : List Stmt} (h : p.Fits (s :: rest))
    {name : Name} (hname : s.declared? = some name) :
    ∀ layer ∈ p.head?, layer.declared ++ [name.text] <+: layer.region.names := by
  intro layer hlayer
  have hroom := h layer hlayer
  unfold declaredNames at hroom
  rw [List.filterMap_cons_some hname, List.map_cons, ← List.singleton_append,
    ← List.append_assoc] at hroom
  exact (List.prefix_append _ _).trans hroom

theorem Position.Fits.single {p : Position} {s : Stmt} {rest : List Stmt}
    (h : p.Fits (s :: rest)) : p.Fits [s] := by
  intro layer hlayer
  have hroom := h layer hlayer
  unfold declaredNames at hroom ⊢
  rw [← List.singleton_append, List.filterMap_append, List.map_append, ← List.append_assoc] at hroom
  exact (List.prefix_append _ _).trans hroom

theorem Position.Fits.rest {p : Position} {s : Stmt} {rest : List Stmt} (h : p.Fits (s :: rest)) :
    (p.after s).Fits rest := by
  cases hname : s.declared? with
  | none =>
    rw [Position.after_eq_self hname]
    intro layer hlayer
    have hroom := h layer hlayer
    unfold declaredNames at hroom ⊢
    rwa [List.filterMap_cons_none hname] at hroom
  | some name =>
    have hafter : p.after s = p.declare name.text := by
      unfold Position.after
      rw [hname]
    rw [hafter]
    cases p with
    | nil => exact fun layer hlayer => by cases hlayer
    | cons first outer =>
      rintro _ ⟨⟩
      have hroom := h first rfl
      unfold declaredNames at hroom ⊢
      rw [List.filterMap_cons_some hname, List.map_cons, ← List.singleton_append,
        ← List.append_assoc] at hroom
      exact hroom

theorem Position.fits_of_none {p : Position} {s : Stmt} (h : s.declared? = none)
    (prefixed : ∀ layer ∈ p.head?, layer.declared <+: layer.region.names) : p.Fits [s] := by
  intro layer hlayer
  unfold declaredNames
  rw [List.filterMap_cons_none h, List.filterMap_nil, List.map_nil, List.append_nil]
  exact prefixed layer hlayer

/-- Outside all scopes any statements fit. -/
theorem Position.fits_outside (body : List Stmt) : Position.Fits [] body :=
  nofun

theorem Position.Formed.after {p : Position} (h : p.Formed) {s : Stmt} (formed : s.Formed)
    (fits : p.Fits [s]) : (p.after s).Formed := by
  unfold Position.after
  cases hname : s.declared? with
  | none => exact h
  | some name => exact h.declare (formed.declared hname) (fits.name hname)

/-- The variables of the current frame are the first ones of its scope. -/
theorem Chronicle.Ready.prefixed {p : Position} (h : c.Ready known p) :
    ∀ layer ∈ p.head?, layer.declared <+: layer.region.names := by
  intro layer hlayer
  have hreached := h.here.reached
  cases p with
  | nil => cases hlayer
  | cons first outer =>
    cases hlayer
    cases hcurrent : c.scene.machine.current with
    | none =>
      rw [hcurrent] at hreached
      exact hreached.elim
    | some id =>
      rw [hcurrent] at hreached
      obtain ⟨⟨r, hr, hregion, hnames⟩, -⟩ := hreached
      rw [← hregion]
      exact hnames.trans (h.sound.scene.recorded.names id r hr)

/-! ## What holds with a budget -/

/-- Evaluation and execution with a budget are steady. -/
structure SteadyAt (known : Site → Prop) (budget : Nat) : Prop where
  evaluate : ∀ (e : Expr) (p : Position) (c : Chronicle), c.Ready known p → e.Formed →
    (∀ x ∈ e.sites p, known x) →
    Steady known none (Watch.evaluate budget e) c fun v s => v.Sound known s
  execute : ∀ (st : Stmt) (p : Position) (c : Chronicle), c.Ready known p → st.Formed →
    p.Fits [st] → (∀ x ∈ st.sites p, known x) →
    Steady known c.scene.machine.current (Watch.execute budget st) c
      fun completion s => completion.Sound known s ∧ s.At (p.after st)
  repeatWhile : ∀ (condition : Expr) (body : Stmt) (p : Position) (c : Chronicle),
    c.Ready known p → condition.Formed → body.Formed → body.declared? = none →
    (∀ x ∈ condition.sites p ++ body.sites p, known x) →
    Steady known c.scene.machine.current (Watch.repeatWhile budget condition body) c
      fun completion s => completion.Sound known s ∧ s.At p
  callClosure : ∀ (f : Closure) (arguments : List Value) (line : Nat) (c : Chronicle),
    c.Sound known → f.Sound known c.scene → (∀ v ∈ arguments, v.Sound known c.scene) →
    f.function.arity = arguments.length →
    Steady known none (Watch.callClosure budget f arguments line) c fun v s => v.Sound known s

/-! ## Sites of parts -/

theorem Expr.mem_sites (e : Expr) (p : Position) : ⟨p, .evaluating e⟩ ∈ e.sites p := by
  cases e <;> simp [Expr.sites]

theorem Stmt.mem_sites (s : Stmt) (p : Position) : ⟨p, .executing s⟩ ∈ s.sites p := by
  cases s with
  | varDecl name initial => cases initial <;> simp [Stmt.sites]
  | ifThen condition thenBranch elseBranch => cases elseBranch <;> simp [Stmt.sites]
  | returnWith line value => cases value <;> simp [Stmt.sites]
  | _ => simp [Stmt.sites]

/-- The sites of a part are known where those of the whole are. -/
theorem known_of_append {first second : List Site} (h : ∀ x ∈ first ++ second, known x) :
    (∀ x ∈ first, known x) ∧ ∀ x ∈ second, known x :=
  ⟨fun x hx => h x (List.mem_append_left _ hx), fun x hx => h x (List.mem_append_right _ hx)⟩

theorem known_of_cons {x : Site} {rest : List Site} (h : ∀ y ∈ x :: rest, known y) :
    known x ∧ ∀ y ∈ rest, known y :=
  ⟨h x List.mem_cons_self, fun y hy => h y (List.mem_cons_of_mem x hy)⟩

/-! ## Lists of parts -/

theorem SteadyAt.values {budget : Nat} (h : SteadyAt known budget) (es : List Expr) {p : Position}
    (ready : c.Ready known p) (formed : FormedArguments es)
    (sites : ∀ x ∈ sitesInArguments p es, known x) :
    Steady known none (Watch.values (Watch.evaluate budget) es) c
      fun vs s => ∀ v ∈ vs, v.Sound known s := by
  induction es generalizing c with
  | nil => exact steady_pure ready.sound (by simp)
  | cons e rest ih =>
    obtain ⟨first, others⟩ := known_of_append sites
    refine (h.evaluate e p c ready formed.1 first).bind fun v c' sound later hv => ?_
    refine (ih (ready.later sound later) formed.2 others).bind fun vs c'' sound' later' hvs => ?_
    refine steady_pure sound' ?_
    intro w hw
    rcases List.mem_cons.mp hw with rfl | hw
    · exact hv.keeps later'.toKeeps
    · exact hvs w hw

theorem SteadyAt.inOrder {budget : Nat} (h : SteadyAt known budget) (body : List Stmt)
    {p : Position} (ready : c.Ready known p) (formed : FormedBody body) (fits : p.Fits body)
    (sites : ∀ x ∈ sitesInBody p body, known x) :
    Steady known c.scene.machine.current (Watch.inOrder (Watch.execute budget) body) c
      fun completion s => completion.Sound known s := by
  induction body generalizing c p with
  | nil => exact steady_pure ready.sound trivial
  | cons st rest ih =>
    obtain ⟨first, others⟩ := known_of_append sites
    refine (h.execute st p c ready formed.1 fits.single first).bind ?_
    rintro completion c' sound later ⟨hcompletion, here⟩
    cases completion with
    | normal =>
      rw [← later.current]
      exact ih ⟨sound, here, ready.formed.after formed.1 fits.single⟩ formed.2 fits.rest others
    | broke => exact steady_pure sound trivial
    | returned v => exact steady_pure sound hcompletion

/-! ## Calls -/

theorem Function.sites_eq (f : Function) (p : Position) :
    f.sites p = sitesInBody (p.enter (.function f) (f.params.map Name.text)) f.body := by
  obtain ⟨params, body⟩ := f
  rfl

theorem names_callRecord {f : Function} {arguments : List Value}
    (arity : f.arity = arguments.length) :
    (Watch.callRecord f arguments).names = f.params.map Name.text := by
  unfold Watch.callRecord Record.names
  rw [List.map_fst_zip]
  rw [List.length_map]
  exact Nat.le_of_eq arity

theorem values_callRecord {f : Function} {arguments : List Value}
    (arity : f.arity = arguments.length) : (Watch.callRecord f arguments).values = arguments := by
  unfold Watch.callRecord Record.values
  rw [List.map_snd_zip]
  rw [List.length_map]
  exact Nat.le_of_eq arity.symm

/-- The frame that a call makes has the values of the record of the call. -/
theorem framing_callRecord {f : Closure} {arguments : List Value}
    (arity : f.function.arity = arguments.length) (m : Machine) :
    Framing f.frame (Watch.callRecord f.function arguments).values
      (Evaluation.callFrame f arguments) m (· = m.frames.next) := by
  rw [values_callRecord arity]
  exact framing_callFrame f arguments m

/-- A piece of a run that makes the frame of statements, which can then be executed in it. -/
structure Enters (known : Site → Prop) (make : Watch FrameId) (record : Record)
    (outer : Option FrameId) (body : List Stmt) (c : Chronicle) : Prop where
  steady : Steady known none make c
    fun frame s => frame = c.scene.machine.frames.next ∧ c.scene.Framed record outer s
  ready : ∃ p : Position, FormedBody body ∧ p.Fits body ∧ (∀ x ∈ sitesInBody p body, known x) ∧
    ∀ c' : Chronicle, c'.Sound known → c.scene.Framed record outer c'.scene →
      Chronicle.Ready known p
        ⟨c'.scene.withCurrent (some c.scene.machine.frames.next), c'.steps⟩

theorem SteadyAt.entered {budget : Nat} (h : SteadyAt known budget) {make : Watch FrameId}
    {record : Record} {outer : Option FrameId} {body : List Stmt}
    (enters : Enters known make record outer body c) :
    Steady known none
      (make >>= fun frame => Watch.within frame (Watch.inOrder (Watch.execute budget) body)) c
      fun completion s => completion.Sound known s := by
  obtain ⟨p, formed, fits, sites, ready⟩ := enters.ready
  refine enters.steady.scoped (fun c' sound framed => ?_) fun _ _ _ keeps h => h.keeps keeps
  exact h.inOrder body (ready c' sound framed) formed fits sites

/-- The body of a closure runs at the position of its code. -/
theorem Closure.Sound.enters {f : Closure} {arguments : List Value} (sound : c.Sound known)
    (hf : f.Sound known c.scene) (harguments : ∀ v ∈ arguments, v.Sound known c.scene)
    (arity : f.function.arity = arguments.length) :
    Enters known
      (Watch.framing (Watch.callRecord f.function arguments) (Evaluation.callFrame f arguments))
      (Watch.callRecord f.function arguments) f.frame f.function.body c := by
  obtain ⟨p, hmatches, formed, code, sites, -⟩ := hf
  have hnames := names_callRecord arity
  have hframing := framing_callRecord arity c.scene.machine
  have hsuits : (Watch.callRecord f.function arguments).Suits known c.scene f.frame :=
    { names := by rw [hnames]; exact List.prefix_append _ _
      values := by rwa [values_callRecord arity]
      superclass := nofun
      outer := lt_next_of_matches sound.scene.recorded hmatches }
  refine ⟨steady_framing sound (Watch.callRecord f.function arguments) hsuits hframing, ?_⟩
  rw [Function.sites_eq] at sites
  refine ⟨_, code.body, ?_, sites, fun c' sound' framed => ?_⟩
  · rintro _ ⟨⟩
    exact List.prefix_rfl
  · have here := framed.at hmatches
    rw [hnames] at here
    exact ⟨⟨sound_withCurrent sound'.scene _, sound'.steps⟩, here, formed.enter_function code⟩

/-- A closure is called at the position of its code. -/
theorem SteadyAt.call {budget : Nat} (h : SteadyAt known budget) {f : Closure}
    {arguments : List Value} (line : Nat) (sound : c.Sound known) (hf : f.Sound known c.scene)
    (harguments : ∀ v ∈ arguments, v.Sound known c.scene)
    (arity : f.function.arity = arguments.length) :
    Steady known none (Watch.callClosure (budget + 1) f arguments line) c
      fun v s => v.Sound known s := by
  unfold Watch.callClosure
  rw [← bind_assoc]
  refine (h.entered (hf.enters sound harguments arity)).bind
    fun completion c' sound' later hcompletion => ?_
  exact steady_value sound' (quiet_callResult line sound'.scene (hf.keeps later.toKeeps)
    hcompletion)

theorem SteadyAt.instantiate {budget : Nat} (h : SteadyAt known budget) {type : Class}
    {arguments : List Value} (line : Nat) (sound : c.Sound known)
    (htype : type.Sound known c.scene) (harguments : ∀ v ∈ arguments, v.Sound known c.scene)
    (arity : type.arity = arguments.length) :
    Steady known none (Watch.instantiate (Watch.callClosure budget) type arguments line) c
      fun v s => v.Sound known s := by
  refine (steady_quietly sound quiet_newObject).bind fun id c₁ sound₁ later₁ _ => ?_
  have htype₁ := htype.keeps later₁.toKeeps
  have hcreated : (Value.instanceOf id type).Sound known c₁.scene := htype₁
  split
  · next initializer hfound =>
    have harity : initializer.function.arity = arguments.length := by
      unfold Class.arity at arity
      rwa [hfound] at arity
    refine (steady_bind sound₁ (htype₁.findMethod hfound) hcreated).bind ?_
    rintro f c₂ sound₂ later₂ ⟨hfunction, hf⟩
    have later := later₁.trans later₂
    refine (h.callClosure f arguments line c₂ sound₂ hf
      (fun v hv => (harguments v hv).keeps later.toKeeps) (by rw [hfunction, harity])).bind ?_
    intro _ c₃ sound₃ later₃ _
    exact steady_pure sound₃ (hcreated.keeps (later₂.trans later₃).toKeeps)
  · exact steady_pure sound₁ hcreated

theorem SteadyAt.callValue {budget : Nat} (h : SteadyAt known budget) {callee : Value}
    {arguments : List Value} (line : Nat) (sound : c.Sound known)
    (hcallee : callee.Sound known c.scene) (harguments : ∀ v ∈ arguments, v.Sound known c.scene) :
    Steady known none (Watch.callValue (Watch.callClosure budget) callee arguments line) c
      fun v s => v.Sound known s := by
  have hkept : ∀ {s : Scene}, c.scene.Later none s → ∀ v ∈ arguments, v.Sound known s :=
    fun later v hv => (harguments v hv).keeps later.toKeeps
  -- Whatever can be called, the number of its arguments is checked first, which changes nothing.
  cases callee with
  | native native =>
    refine (steady_quietly sound (inert_checkArity _ _ _).quiet).bind fun _ c' sound' later _ => ?_
    exact steady_value sound' (quiet_callNative sound_of_bare native arguments line)
  | function id f =>
    refine (steady_quietly sound (inert_checkArity _ _ _).quiet).bind
      fun _ c' sound' later harity => ?_
    exact h.callClosure f arguments line c' sound' (Closure.Sound.keeps hcallee later.toKeeps)
      (hkept later) harity
  | classValue type =>
    refine (steady_quietly sound (inert_checkArity _ _ _).quiet).bind
      fun _ c' sound' later harity => ?_
    exact h.instantiate line sound' (Class.Sound.keeps hcallee later.toKeeps) (hkept later) harity
  | arrayMethod array method =>
    refine (steady_quietly sound (inert_checkArity _ _ _).quiet).bind fun _ c' sound' later _ => ?_
    exact steady_value sound' (quiet_callArrayMethod sound_of_bare sound'.scene.stored array method
      (hkept later) line)
  | _ => exact steady_fail sound rfl

/-! ## Heads of classes and traits -/

/-- Within a declaration the same variables are there as before it. -/
theorem Scene.At.within {s : Scene} {p : Position} (here : s.At p) (name : String) :
    s.At (p.within name) := by
  cases p with
  | nil => exact here
  | cons layer outer =>
    refine ⟨?_, ?_⟩
    · have hreached := here.reached
      cases hcurrent : s.machine.current with
      | none =>
        rw [hcurrent] at hreached
        exact hreached.elim
      | some id =>
        rw [hcurrent] at hreached
        exact hreached
    · rintro id hid _ ⟨⟩ r hr
      exact here.exact id hid layer rfl r hr

theorem steady_readHead {p : Position} {ref : Reference} (sound : c.Sound known)
    (formed : p.Formed) (here : c.scene.At p) (plain : ref.Plain)
    (site : known ⟨p, .evaluating (.variable ref)⟩) :
    Steady known none (Watch.lookUp ref) c fun v s => v.Sound known s := by
  have hknown : Moment.Known known p (.evaluating (.variable ref)) := by
    refine ⟨site, ?_⟩
    rintro _ ⟨⟩
    exact ⟨plain, by simpa [Expr.sites] using site⟩
  exact steady_lookUp sound hknown formed here rfl plain.2.2 ref.name.line

theorem steady_addTraits (traits : List Reference) {p : Position} {composed : Methods}
    (sound : c.Sound known) (formed : p.Formed) (here : c.scene.At p)
    (plain : ∀ ref ∈ traits, ref.Plain) (hcomposed : composed.Sound known c.scene)
    (sites : ∀ x ∈ readSites p traits, known x) :
    Steady known none (Watch.addTraits traits composed) c fun table s => table.Sound known s := by
  induction traits generalizing c composed with
  | nil => exact steady_pure sound hcomposed
  | cons ref rest ih =>
    obtain ⟨site, others⟩ := known_of_cons sites
    have hplain : ref.Plain := plain ref List.mem_cons_self
    refine (steady_readHead sound formed here hplain site).bind fun v c₁ sound₁ later₁ hv => ?_
    refine (steady_quietly sound₁ (inert_traitOf hplain v).quiet).bind ?_
    rintro t c₂ sound₂ later₂ ⟨id, rfl⟩
    have later := later₁.trans later₂
    have ht : t.methods.Sound known c₂.scene := hv.keeps later₂.toKeeps
    refine (steady_quietly sound₂ (inert_addMethods ref.name.line ht _
      (hcomposed.keeps later.toKeeps)).quiet).bind fun table c₃ sound₃ later₃ htable => ?_
    exact ih sound₃ (here.later (later.trans later₃))
      (fun other h => plain other (List.mem_cons_of_mem ref h))
      (Methods.Sound.keeps htable later₃.toKeeps) others

theorem steady_composeTraits (traits : List Reference) (methods : List NamedFunction)
    {p : Position} (sound : c.Sound known) (formed : p.Formed) (here : c.scene.At p)
    (plain : ∀ ref ∈ traits, ref.Plain) (sites : ∀ x ∈ readSites p traits, known x) :
    Steady known none (Watch.composeTraits traits methods) c
      fun table s => table.Sound known s := by
  refine (steady_addTraits traits sound formed here plain (Methods.all_empty _) sites).bind ?_
  intro table c₁ sound₁ _ htable
  refine (steady_quietly sound₁ (inert_checkProvided table methods).quiet).bind ?_
  exact fun _ c₂ sound₂ later₂ _ => steady_pure sound₂ (htable.keeps later₂.toKeeps)

/-- The superclass of a class that has one. -/
theorem steady_superclass (ref : Reference) {v : Value} (sound : c.Sound known)
    (hv : v.Sound known c.scene) :
    Steady known none (some <$> Watch.quietly (superclassOf ref v)) c
      fun extended s => extended.isSome ∧ ∀ e, extended = some e → e.Sound known s := by
  rw [map_eq_pure_bind]
  refine (steady_quietly sound (inert_superclassOf ref v).quiet).bind ?_
  rintro k c' sound' later rfl
  refine steady_pure sound' ⟨rfl, ?_⟩
  rintro _ ⟨⟩
  exact Class.Sound.keeps hv later.toKeeps

/-! ## Declarations of classes and traits -/

/-- The frame of the methods of a class that is declared in a frame: that frame, or one that
holds the superclass and lies in it. -/
def HoldsMethods (s : Scene) (current : Option FrameId) (derived : Bool) (frame : Option FrameId) :
    Prop :=
  if derived then
    ∃ id r, frame = some id ∧ s.records[id]? = some r ∧ r.region = .superclass ∧
      r.names = [superName] ∧ s.machine.frames.outer? id = current
  else frame = current

theorem HoldsMethods.matches {s s' : Scene} {current frame : Option FrameId} {derived : Bool}
    {growing : Option FrameId} (h : HoldsMethods s current derived frame)
    (keeps : s.Keeps growing s') {p : Position} (hmatches : s'.Matches current p) :
    s'.Matches frame (if derived then p.enter .superclass [superName] else p) := by
  unfold HoldsMethods at h
  cases derived with
  | false =>
    rw [if_neg (by simp)] at h ⊢
    rwa [h]
  | true =>
    rw [if_pos rfl] at h ⊢
    obtain ⟨id, r, rfl, hr, hregion, hnames, houter⟩ := h
    obtain ⟨r', hr', hregion', hnames', -⟩ := keeps.records id r hr
    refine ⟨⟨r', hr', hregion'.trans hregion, ?_⟩, ?_⟩
    · rwa [hnames] at hnames'
    · rwa [keeps.outer id r hr, houter]

theorem steady_methodFrame {p : Position} {extended : Option Class} (sound : c.Sound known)
    (hmatches : c.scene.Matches c.scene.machine.current p)
    (hextended : ∀ e, extended = some e → e.Sound known c.scene) :
    Steady known none (Watch.methodFrame extended) c
      fun frame s => HoldsMethods s c.scene.machine.current extended.isSome frame := by
  cases extended with
  | none => exact (steady_quietly sound inert_current.quiet).mono fun _ _ _ h => h
  | some e =>
    have hvalue : ∀ v ∈ (Watch.superclassRecord e).values, v = .classValue e := by
      simp [Watch.superclassRecord, Record.values]
    have hsuits : (Watch.superclassRecord e).Suits known c.scene c.scene.machine.current :=
      { names := List.prefix_rfl
        values := fun v hv => hvalue v hv ▸ hextended e rfl
        superclass := fun _ v hv => ⟨e, hvalue v hv⟩
        outer := lt_next_of_matches sound.scene.recorded hmatches }
    have hframing := framing_methodFrame e c.scene.machine
    refine (steady_framing sound (Watch.superclassRecord e) hsuits hframing).mono ?_
    rintro _ s _ ⟨rfl, framed⟩
    exact ⟨_, _, rfl, framed.record, rfl, rfl, framed.outer⟩

theorem known_of_methods {p : Position} {methods : List NamedFunction}
    (sites : ∀ x ∈ sitesInMethods p methods, known x) {f : NamedFunction} (hf : f ∈ methods) :
    ∀ x ∈ f.function.sites p, known x := by
  induction methods with
  | nil => cases hf
  | cons first rest ih =>
    obtain ⟨here, others⟩ := known_of_append sites
    rcases List.mem_cons.mp hf with rfl | hf
    · obtain ⟨name, function⟩ := f
      exact here
    · exact ih others hf

/-- The methods of a class or trait that has been declared. -/
theorem soundMethod_closure {s : Scene} {p : Position} {name : Name} (derived : Bool)
    {frame : Option FrameId} (formed : (p.methods name derived).Formed)
    (hmatches : s.Matches frame
      (if derived then (p.declare name.text).enter .superclass [superName]
        else p.declare name.text))
    {methods : List NamedFunction} (code : FormedMethods methods)
    (sites : ∀ x ∈ sitesInMethods (p.methods name derived) methods, known x) :
    ∀ f ∈ methods, ∀ initializer, (f.closure frame initializer).SoundMethod known s :=
  fun f hf _ => ⟨_, hmatches, formed, (formedMethods_iff.mp code f hf).function,
    known_of_methods sites hf⟩

/-- A class is declared where its methods see it. -/
theorem steady_declareMethods {p : Position} {name : Name} {extended : Option Class}
    {traits : List Reference} {methods classMethods : List NamedFunction}
    (ready : c.Ready known p) (plain : name.Plain) (headsPlain : ∀ ref ∈ traits, ref.Plain)
    (room : ∀ layer ∈ p.head?, layer.declared ++ [name.text] <+: layer.region.names)
    (hextended : ∀ e, extended = some e → e.Sound known c.scene)
    (code : FormedMethods methods) (classCode : FormedMethods classMethods)
    (heads : ∀ x ∈ readSites (p.within name.text) traits, known x)
    (sites : ∀ x ∈ sitesInMethods (p.methods name extended.isSome) methods, known x)
    (classSites : ∀ x ∈ sitesInMethods (p.methods name extended.isSome) classMethods, known x) :
    Steady known c.scene.machine.current
      (do
        let composed ← Watch.composeTraits traits methods
        let frame ← Watch.methodFrame extended
        let declared ← Watch.quietly (newClass name extended composed frame methods classMethods)
        Watch.declare name.text (.classValue declared)) c
      fun _ s => s.At (p.declare name.text) := by
  have formed := ready.formed.methods plain room extended.isSome
  refine (steady_composeTraits traits methods ready.sound (ready.formed.within plain room)
    (ready.here.within name.text) headsPlain
    heads).before fun composed c₁ sound₁ later₁ hcomposed => ?_
  refine (steady_methodFrame sound₁ (ready.here.later later₁).reached
    fun e he => (hextended e he).keeps later₁.toKeeps).before
      fun frame c₂ sound₂ later₂ hframe => ?_
  refine (steady_quietly sound₂ (quiet_newClass known name extended composed frame methods
    classMethods)).before fun k c₃ sound₃ later₃ hk => ?_
  have later₁₃ := later₁.trans (later₂.trans later₃)
  rw [← later₁₃.current]
  refine steady_declare sound₃ (ready.here.later later₁₃) plain.explicit room
    fun s keeps hmatches => ?_
  have hcurrent : c₁.scene.machine.current = c₃.scene.machine.current :=
    (later₂.trans later₃).current.symm
  rw [hcurrent] at hframe
  -- The methods are closed over the frame of `super` if there is one, else over where the class is.
  have hmethods := hframe.matches ((later₃.toKeeps.weaken _).trans keeps) hmatches
  refine hk s ?_ ?_ (soundMethod_closure _ formed hmethods code sites)
    (soundMethod_closure _ formed hmethods classCode classSites)
  · exact fun e he => ((hextended e he).keeps later₁₃.toKeeps).keeps keeps
  · exact (hcomposed.keeps (later₂.trans later₃).toKeeps).keeps keeps

theorem steady_declareClass {p : Position} {name : Name} {superclass : Option Reference}
    {traits : List Reference} {methods classMethods : List NamedFunction}
    (ready : c.Ready known p)
    (code : (Stmt.classDecl name superclass traits methods classMethods).Formed)
    (fits : p.Fits [.classDecl name superclass traits methods classMethods])
    (sites : ∀ x ∈ (Stmt.classDecl name superclass traits methods classMethods).sites p, known x) :
    Steady known c.scene.machine.current
      (Watch.declareClass name superclass traits methods classMethods) c
      fun _ s => s.At (p.declare name.text) := by
  obtain ⟨plain, headsPlain, hmethods, hclassMethods⟩ := code
  obtain ⟨-, sites⟩ := known_of_cons sites
  obtain ⟨sites, classSites⟩ := known_of_append sites
  obtain ⟨heads, sites⟩ := known_of_append sites
  have room : ∀ layer ∈ p.head?, layer.declared ++ [name.text] <+: layer.region.names :=
    fits.name rfl
  unfold Watch.declareClass
  cases superclass with
  | none =>
    exact steady_declareMethods ready plain headsPlain room (by simp) hmethods hclassMethods heads
      sites classSites
  | some ref =>
    obtain ⟨head, heads⟩ := known_of_cons heads
    refine (steady_readHead ready.sound (ready.formed.within plain room)
      (ready.here.within name.text) (headsPlain ref List.mem_cons_self) head).before ?_
    intro v c₁ sound₁ later₁ hv
    refine (steady_superclass ref sound₁ hv).before ?_
    rintro extended c₂ sound₂ later₂ ⟨hsome, hextended⟩
    have later := later₁.trans later₂
    rw [← later.current]
    have hderived : extended.isSome = (some ref).isSome := hsome
    rw [← hderived] at sites classSites
    exact steady_declareMethods (ready.later sound₂ later) plain
      (fun other h => headsPlain other (List.mem_cons_of_mem ref h)) room hextended hmethods
      hclassMethods heads sites classSites

theorem steady_declareTrait {p : Position} {name : Name} {traits : List Reference}
    {methods : List NamedFunction} (ready : c.Ready known p)
    (code : (Stmt.traitDecl name traits methods).Formed)
    (fits : p.Fits [.traitDecl name traits methods])
    (sites : ∀ x ∈ (Stmt.traitDecl name traits methods).sites p, known x) :
    Steady known c.scene.machine.current (Watch.declareTrait name traits methods) c
      fun _ s => s.At (p.declare name.text) := by
  obtain ⟨plain, headsPlain, hmethods⟩ := code
  obtain ⟨-, sites⟩ := known_of_cons sites
  obtain ⟨heads, sites⟩ := known_of_append sites
  have room : ∀ layer ∈ p.head?, layer.declared ++ [name.text] <+: layer.region.names :=
    fits.name rfl
  have formed := ready.formed.methods plain room false
  refine (steady_composeTraits traits methods ready.sound (ready.formed.within plain room)
    (ready.here.within name.text) headsPlain
    heads).before fun composed c₁ sound₁ later₁ hcomposed => ?_
  refine (steady_quietly sound₁ inert_current.quiet).before fun frame c₂ sound₂ later₂ hframe => ?_
  refine (steady_quietly sound₂ quiet_newIdentity).before fun id c₃ sound₃ later₃ _ => ?_
  have later₁₃ := later₁.trans (later₂.trans later₃)
  rw [← later₁₃.current]
  refine steady_declare sound₃ (ready.here.later later₁₃) plain.explicit room
    fun s keeps hmatches => ?_
  have hcurrent : frame = c₃.scene.machine.current :=
    hframe.trans (later₂.trans later₃).current.symm
  rw [← hcurrent] at hmatches
  have hwritten := soundMethod_closure false formed hmatches hmethods sites
  refine Methods.All.addBody ?_ fun f hf => hwritten f hf _
  exact (hcomposed.keeps (later₂.trans later₃).toKeeps).keeps keeps

end LoxLang
