import LoxLang.Proofs.Evaluation.Discipline

/-!
# Steps of a run

One step of evaluation and one of execution, each by the forms of its trees, and from them what
a run does with any budget (`steadyAt`).
-/

namespace LoxLang

variable {known : Site → Prop} {c : Chronicle} {budget : Nat} {p : Position}

/-- A step that looks nothing up leaves the run where it is. -/
theorem Chronicle.Ready.mark {moment : Moment} (ready : c.Ready known p)
    (site : moment.Known known p) (quiet : moment.reference? = none) :
    Chronicle.Ready known p ⟨c.scene, ⟨moment, c.scene⟩ :: c.steps⟩ :=
  ⟨ready.sound.marked site ready.formed ready.here quiet, ready.here, ready.formed⟩

theorem Chronicle.Ready.marked {α : Type} {growing : Option FrameId} {watch : Watch α}
    {moment : Moment} {result : α → Scene → Prop} (ready : c.Ready known p)
    (site : moment.Known known p) (quiet : moment.reference? = none)
    (h : Chronicle.Ready known p ⟨c.scene, ⟨moment, c.scene⟩ :: c.steps⟩ →
      Steady known growing watch ⟨c.scene, ⟨moment, c.scene⟩ :: c.steps⟩ result) :
    Steady known growing (Watch.mark moment >>= fun _ => watch) c result :=
  h (ready.mark site quiet)

/-! ## Expressions -/

/-- Evaluation of an expression, with evaluation of its parts at hand. -/
theorem SteadyAt.evaluate_succ (h : SteadyAt known budget) (e : Expr) (ready : c.Ready known p)
    (formed : e.Formed) (sites : ∀ x ∈ e.sites p, known x) :
    Steady known none (Watch.evaluate (budget + 1) e) c fun v s => v.Sound known s := by
  have site : Moment.Known known p (.evaluating e) := by
    refine ⟨sites _ (e.mem_sites p), ?_⟩
    rintro _ ⟨⟩
    exact ⟨formed, sites⟩
  unfold Watch.evaluate
  cases e with
  | literal value =>
    refine ready.marked site rfl fun ready => steady_pure ready.sound ?_
    cases value <;> trivial
  | grouping inner =>
    exact ready.marked site rfl fun ready =>
      h.evaluate inner p _ ready formed (known_of_cons sites).2
  | unary op line operand =>
    refine ready.marked site rfl fun ready => ?_
    refine (h.evaluate operand p _ ready formed (known_of_cons sites).2).bind ?_
    exact fun v c' sound _ _ => steady_value sound (quiet_apply sound_of_bare op line v)
  | binary left op line right =>
    obtain ⟨first, second⟩ := known_of_append (known_of_cons sites).2
    refine ready.marked site rfl fun ready => ?_
    refine (h.evaluate left p _ ready formed.1 first).bind fun l c₁ sound₁ later₁ _ => ?_
    refine (h.evaluate right p _ (ready.later sound₁ later₁) formed.2 second).bind ?_
    exact fun r c₂ sound₂ _ hr => steady_value sound₂ (quiet_applyBoth sound_of_bare op line l hr)
  | logical left op line right =>
    obtain ⟨first, second⟩ := known_of_append (known_of_cons sites).2
    refine ready.marked site rfl fun ready => ?_
    refine (h.evaluate left p _ ready formed.1 first).bind fun l c₁ sound₁ later₁ hl => ?_
    split
    · exact steady_pure sound₁ hl
    · exact h.evaluate right p _ (ready.later sound₁ later₁) formed.2 second
  | conditional condition thenBranch elseBranch =>
    obtain ⟨others, third⟩ := known_of_append (known_of_cons sites).2
    obtain ⟨first, second⟩ := known_of_append others
    refine ready.marked site rfl fun ready => ?_
    refine (h.evaluate condition p _ ready formed.1 first).bind fun v c₁ sound₁ later₁ _ => ?_
    split
    · exact h.evaluate thenBranch p _ (ready.later sound₁ later₁) formed.2.1 second
    · exact h.evaluate elseBranch p _ (ready.later sound₁ later₁) formed.2.2 third
  | «variable» ref =>
    exact steady_lookUp ready.sound site ready.formed ready.here rfl formed.2.2 ref.name.line
  | assign ref value =>
    obtain ⟨first, last⟩ := known_of_append (known_of_cons sites).2
    refine ready.marked site rfl fun ready => ?_
    refine (h.evaluate value p _ ready formed.2 first).bind fun v c₁ sound₁ later₁ hv => ?_
    have stored : Moment.Known known p (.storing ref) :=
      ⟨last _ List.mem_cons_self, fun _ h => by cases h⟩
    have store := steady_assign sound₁ stored ready.formed (ready.here.later later₁) formed.1 hv
    -- The mark of the store and the store itself are one step.
    rw [← bind_assoc]
    exact store.bind fun _ c₂ sound₂ later₂ _ => steady_pure sound₂ (hv.keeps later₂.toKeeps)
  | call callee arguments line =>
    obtain ⟨first, others⟩ := known_of_append (known_of_cons sites).2
    refine ready.marked site rfl fun ready => ?_
    refine (h.evaluate callee p _ ready formed.1 first).bind fun f c₁ sound₁ later₁ hf => ?_
    refine (h.values arguments (ready.later sound₁ later₁) formed.2 others).bind
      fun vs c₂ sound₂ later₂ hvs => ?_
    exact h.callValue line sound₂ (hf.keeps later₂.toKeeps) hvs
  | get object name =>
    refine ready.marked site rfl fun ready => ?_
    refine (h.evaluate object p _ ready formed (known_of_cons sites).2).bind ?_
    exact fun v c' sound _ hv => steady_property name sound hv
  | set object name value =>
    obtain ⟨first, second⟩ := known_of_append (known_of_cons sites).2
    refine ready.marked site rfl fun ready => ?_
    refine (h.evaluate object p _ ready formed.1 first).bind fun o c₁ sound₁ later₁ _ => ?_
    refine (steady_quietly sound₁ (inert_fieldOwner o name).quiet).bind
      fun owner c₂ sound₂ later₂ _ => ?_
    have later := later₁.trans later₂
    refine (h.evaluate value p _ (ready.later sound₂ later) formed.2 second).bind
      fun v c₃ sound₃ _ hv => ?_
    refine (steady_quietly sound₃ (quiet_setField hv)).bind fun _ c₄ sound₄ later₄ _ => ?_
    exact steady_pure sound₄ (hv.keeps later₄.toKeeps)
  | this id line =>
    exact steady_lookUp ready.sound site ready.formed ready.here rfl (by decide : thisName ≠ _) line
  | super id line method => exact steady_superMethod ready.sound ready.here ready.formed site
  | lambda line function =>
    refine ready.marked site rfl fun ready => ?_
    refine (steady_quietly ready.sound inert_current.quiet).bind
      fun frame c₁ sound₁ later₁ hframe => ?_
    refine (steady_quietly sound₁ (quiet_toValue ⟨none, function, frame, false⟩)).mono ?_
    rintro _ s later₂ ⟨id, rfl⟩
    -- The function is closed over the scopes in which the lambda stands.
    refine ⟨p, ?_, ready.formed, formed, (known_of_cons sites).2, by simp⟩
    rw [hframe]
    exact ready.here.reached.keeps (later₁.trans later₂).toKeeps

/-! ## Statements -/

/-- A block runs in a frame of its own, which lies in the current one. -/
theorem Chronicle.Ready.enters {body : List Stmt} (ready : c.Ready known p)
    (formed : FormedBody body)
    (sites : ∀ x ∈ sitesInBody (p.enter (.block body) []) body, known x) :
    Enters known (Watch.framing ⟨.block body, []⟩ (Run.newFrame c.scene.machine.current))
      ⟨.block body, []⟩ c.scene.machine.current body c := by
  have hmatches := ready.here.reached
  have hsuits : Record.Suits known c.scene ⟨.block body, []⟩ c.scene.machine.current :=
    { names := List.nil_prefix
      values := by simp [Record.values]
      superclass := nofun
      outer := lt_next_of_matches ready.sound.scene.recorded hmatches }
  refine ⟨steady_framing ready.sound ⟨.block body, []⟩ hsuits (framing_newFrame _ _),
    _, formed, ?_, sites, fun c' sound framed => ?_⟩
  · rintro _ ⟨⟩
    exact List.prefix_rfl
  · exact ⟨⟨sound_withCurrent sound.scene _, sound.steps⟩, framed.at hmatches,
      ready.formed.enter_block body⟩

theorem SteadyAt.block (h : SteadyAt known budget) {body : List Stmt} (ready : c.Ready known p)
    (formed : FormedBody body)
    (sites : ∀ x ∈ sitesInBody (p.enter (.block body) []) body, known x) :
    Steady known none
      (do
        let frame ← Watch.framing ⟨.block body, []⟩ (Run.newFrame (← Watch.quietly Run.current))
        Watch.within frame (Watch.inOrder (Watch.execute budget) body)) c
      fun completion s => completion.Sound known s :=
  h.entered (ready.enters formed sites)

/-- A statement that only completes. -/
theorem Steady.normally {growing : Option FrameId} {watch : Watch Unit}
    (h : Steady known growing watch c fun _ s => s.At p) :
    Steady known growing (watch >>= fun _ => pure Completion.normal) c
      fun completion s => completion.Sound known s ∧ s.At p :=
  h.bind fun _ _ sound _ here => steady_pure sound ⟨trivial, here⟩

/-- A part of a statement that is itself a statement, and declares nothing. -/
theorem SteadyAt.part (h : SteadyAt known budget) {st : Stmt} (ready : c.Ready known p)
    (formed : st.Formed) (hnone : st.declared? = none) (sites : ∀ x ∈ st.sites p, known x) :
    Steady known c.scene.machine.current (Watch.execute budget st) c
      fun completion s => completion.Sound known s ∧ s.At p := by
  have hpart := h.execute st p c ready formed (Position.fits_of_none hnone ready.prefixed) sites
  rwa [Position.after_eq_self hnone] at hpart

/-- A function is declared where it sees itself. -/
theorem steady_declareFunction {name : Name} {function : Function} (ready : c.Ready known p)
    (code : (Stmt.funDecl (.mk name function)).Formed)
    (fits : p.Fits [.funDecl (.mk name function)])
    (sites : ∀ x ∈ (Stmt.funDecl (.mk name function)).sites p, known x) :
    Steady known c.scene.machine.current
      (do
        let closure := (NamedFunction.mk name function).closure (← Watch.quietly Run.current) false
        Watch.declare name.text (← Watch.quietly closure.toValue)
        return Completion.normal) c
      fun completion s => completion.Sound known s ∧ s.At (p.declare name.text) := by
  have room : ∀ layer ∈ p.head?, layer.declared ++ [name.text] <+: layer.region.names :=
    fits.name rfl
  refine (steady_quietly ready.sound inert_current.quiet).before
    fun frame c₁ sound₁ later₁ hframe => ?_
  refine (steady_quietly sound₁ (quiet_toValue _)).before ?_
  rintro _ c₂ sound₂ later₂ ⟨id, rfl⟩
  have later := later₁.trans later₂
  rw [← later.current]
  refine (steady_declare sound₂ (ready.here.later later) code.1.explicit room
    fun s keeps hmatches => ?_).normally
  -- The function is closed over the scope that has its own name already.
  refine ⟨p.declare name.text, ?_, ready.formed.declare code.1 room, code.2,
    (known_of_cons sites).2, by simp [NamedFunction.closure]⟩
  have hcurrent : frame = c₂.scene.machine.current := hframe.trans later.current.symm
  rw [← hcurrent] at hmatches
  exact hmatches

theorem SteadyAt.declareVariable (h : SteadyAt known budget) {name : Name} {initial : Option Expr}
    (ready : c.Ready known p) (code : (Stmt.varDecl name initial).Formed)
    (fits : p.Fits [.varDecl name initial])
    (sites : ∀ x ∈ (Stmt.varDecl name initial).sites p, known x) :
    Steady known c.scene.machine.current
      (do
        let value ← match initial with
          | some e => Watch.evaluate budget e
          | none => pure .nil
        Watch.declare name.text value
        return Completion.normal) c
      fun completion s => completion.Sound known s ∧ s.At (p.declare name.text) := by
  have room : ∀ layer ∈ p.head?, layer.declared ++ [name.text] <+: layer.region.names :=
    fits.name rfl
  cases initial with
  | none =>
    have hnil : Steady known c.scene.machine.current (Watch.declare name.text .nil) c
        fun _ s => s.At (p.declare name.text) :=
      steady_declare ready.sound ready.here (Name.Plain.explicit code) room fun _ _ _ => trivial
    exact hnil.normally
  | some e =>
    -- The initializer stands where the name has begun but holds nothing yet.
    have ready' : c.Ready known (p.within name.text) :=
      ⟨ready.sound, ready.here.within name.text, ready.formed.within code.1 room⟩
    refine (h.evaluate e _ c ready' code.2 (known_of_cons sites).2).before ?_
    intro v c₁ sound₁ later₁ hv
    rw [← later₁.current]
    exact (steady_declare sound₁ (ready.here.later later₁) code.1.explicit room
      fun s keeps _ => hv.keeps keeps).normally

/-- Execution of a statement, with evaluation and execution of its parts at hand. -/
theorem SteadyAt.execute_succ (h : SteadyAt known budget) (st : Stmt) (ready : c.Ready known p)
    (formed : st.Formed) (fits : p.Fits [st]) (sites : ∀ x ∈ st.sites p, known x) :
    Steady known c.scene.machine.current (Watch.execute (budget + 1) st) c
      fun completion s => completion.Sound known s ∧ s.At (p.after st) := by
  have site : Moment.Known known p (.executing st) :=
    ⟨sites _ (st.mem_sites p), fun _ h => by cases h⟩
  unfold Watch.execute
  refine ready.marked site rfl fun ready => ?_
  cases st with
  | expression value =>
    refine (h.evaluate value p _ ready formed (known_of_cons sites).2).before ?_
    exact fun _ c' sound later _ => steady_pure sound ⟨trivial, ready.here.later later⟩
  | print value =>
    refine (h.evaluate value p _ ready formed (known_of_cons sites).2).before ?_
    intro v c₁ sound₁ later₁ _
    refine (steady_quietly sound₁ (quiet_print v)).before fun _ c₂ sound₂ later₂ _ => ?_
    exact steady_pure sound₂ ⟨trivial, ready.here.later (later₁.trans later₂)⟩
  | varDecl name initial => exact h.declareVariable ready formed fits sites
  | block body =>
    refine ((h.block ready formed (known_of_cons sites).2).mono ?_).weaken _
    exact fun completion s later hcompletion => ⟨hcompletion, ready.here.later later⟩
  | ifThen condition thenBranch elseBranch =>
    cases elseBranch with
    | none =>
      obtain ⟨first, second⟩ := known_of_append (known_of_cons sites).2
      refine (h.evaluate condition p _ ready formed.1 first).before fun v c₁ sound₁ later₁ _ => ?_
      have ready₁ := ready.later sound₁ later₁
      rw [← later₁.current]
      split
      · exact h.part ready₁ formed.2.1 formed.2.2 second
      · exact steady_pure sound₁ ⟨trivial, ready₁.here⟩
    | some elseBranch =>
      obtain ⟨others, third⟩ := known_of_append (known_of_cons sites).2
      obtain ⟨first, second⟩ := known_of_append others
      refine (h.evaluate condition p _ ready formed.1 first).before fun v c₁ sound₁ later₁ _ => ?_
      have ready₁ := ready.later sound₁ later₁
      rw [← later₁.current]
      split
      · exact h.part ready₁ formed.2.1 formed.2.2.1 second
      · exact h.part ready₁ formed.2.2.2.1 formed.2.2.2.2 third
  | whileDo condition body =>
    exact h.repeatWhile condition body p _ ready formed.1 formed.2.1 formed.2.2
      (known_of_cons sites).2
  | breakLoop line => exact steady_pure ready.sound ⟨trivial, ready.here⟩
  | returnWith line value =>
    cases value with
    | none => exact steady_pure ready.sound ⟨trivial, ready.here⟩
    | some e =>
      refine (h.evaluate e p _ ready formed (known_of_cons sites).2).before ?_
      exact fun v c' sound later hv => steady_pure sound ⟨hv, ready.here.later later⟩
  | funDecl declared =>
    obtain ⟨name, function⟩ := declared
    exact steady_declareFunction ready formed fits sites
  | classDecl name superclass traits methods classMethods =>
    exact Steady.normally (steady_declareClass ready formed fits sites)
  | traitDecl name traits methods =>
    exact Steady.normally (steady_declareTrait ready formed fits sites)

/-! ## Loops -/

/-- One round of a loop, with execution of its parts and of the rounds to come at hand. -/
theorem SteadyAt.repeatWhile_succ (h : SteadyAt known budget) {condition : Expr} {body : Stmt}
    (ready : c.Ready known p) (code : condition.Formed) (bodyCode : body.Formed)
    (hnone : body.declared? = none) (sites : ∀ x ∈ condition.sites p ++ body.sites p, known x) :
    Steady known c.scene.machine.current (Watch.repeatWhile (budget + 1) condition body) c
      fun completion s => completion.Sound known s ∧ s.At p := by
  obtain ⟨first, second⟩ := known_of_append sites
  unfold Watch.repeatWhile
  refine (h.evaluate condition p c ready code first).before fun v c₁ sound₁ later₁ _ => ?_
  have ready₁ := ready.later sound₁ later₁
  rw [← later₁.current]
  split
  · refine (h.part ready₁ bodyCode hnone second).bind ?_
    rintro completion c₂ sound₂ later₂ ⟨hcompletion, here₂⟩
    cases completion with
    | normal =>
      rw [← later₂.current]
      exact h.repeatWhile condition body p c₂ ⟨sound₂, here₂, ready.formed⟩ code bodyCode hnone
        sites
    | broke => exact steady_pure sound₂ ⟨trivial, here₂⟩
    | returned v => exact steady_pure sound₂ ⟨hcompletion, here₂⟩
  · exact steady_pure sound₁ ⟨trivial, ready₁.here⟩

/-! ## Any budget -/

/-- Whatever the budget, evaluation and execution are steady. -/
theorem steadyAt (known : Site → Prop) (budget : Nat) : SteadyAt known budget := by
  induction budget with
  | zero =>
    refine ⟨?_, ?_, ?_, ?_⟩
    · exact fun _ _ _ ready _ _ => steady_exhausted ready.sound
    · exact fun _ _ _ ready _ _ _ => steady_exhausted ready.sound
    · exact fun _ _ _ _ ready _ _ _ _ => steady_exhausted ready.sound
    · exact fun _ _ _ _ sound _ _ _ => steady_exhausted sound
  | succ budget ih =>
    refine ⟨?_, ?_, ?_, ?_⟩
    · exact fun e p c ready formed sites => ih.evaluate_succ e ready formed sites
    · exact fun st p c ready formed fits sites => ih.execute_succ st ready formed fits sites
    · exact fun _ _ p c ready code bodyCode hnone sites =>
        ih.repeatWhile_succ ready code bodyCode hnone sites
    · exact fun f arguments line c sound hf harguments arity =>
        ih.call line sound hf harguments arity

/-- A run of a whole program is steady, outside all scopes. -/
theorem steady_interpret (budget : Nat) (program : List Stmt) (ready : c.Ready known [])
    (formed : FormedBody program) (sites : ∀ x ∈ sitesInBody [] program, known x) :
    Steady known c.scene.machine.current (Watch.interpret budget program) c
      fun _ s => s.At [] := by
  induction program generalizing c with
  | nil => exact steady_pure ready.sound ready.here
  | cons st rest ih =>
    obtain ⟨first, others⟩ := known_of_append sites
    have hfits := Position.fits_outside [st]
    refine ((steadyAt known budget).execute st [] c ready formed.1 hfits first).bind ?_
    rintro _ c' sound later ⟨-, here⟩
    rw [Position.after_outside] at here others
    rw [← later.current]
    exact ih ⟨sound, here, .outside⟩ formed.2 others

end LoxLang
