import LoxLang.Proofs.Evaluation.Declaring
import LoxLang.Proofs.Evaluation.Steps

/-!
# What a run makes

One step of evaluation and one of execution, each by the forms of its trees, and from them what is
made by a run with any budget (`makingAt`). Where a piece of a run is at a position, this is known
from what is said of steady runs.
-/

namespace LoxLang

/-- What a `return` carries was made. -/
def Completion.Made (past : Step → Prop) (s : Scene) : Completion → Prop
  | .returned v => v.Made past s
  | _ => True

/-- Evaluation and execution with a budget make what they use. -/
structure MakingAt (known : Site → Prop) (past : Step → Prop) (budget : Nat) : Prop where
  evaluate : ∀ (e : Expr) (p : Position) (c : Chronicle), c.Made past → c.Ready known p →
    e.Formed → (∀ x ∈ e.sites p, known x) →
    Making past (Watch.evaluate budget e) c fun v c' => v.Made (c'.Past past) c'.scene
  execute : ∀ (st : Stmt) (p : Position) (c : Chronicle), c.Made past → c.Ready known p →
    st.Formed → p.Fits [st] → (∀ x ∈ st.sites p, known x) →
    Making past (Watch.execute budget st) c
      fun completion c' => completion.Made (c'.Past past) c'.scene
  repeatWhile : ∀ (condition : Expr) (body : Stmt) (p : Position) (c : Chronicle),
    c.Made past → c.Ready known p → condition.Formed → body.Formed → body.declared? = none →
    (∀ x ∈ condition.sites p ++ body.sites p, known x) →
    Making past (Watch.repeatWhile budget condition body) c
      fun completion c' => completion.Made (c'.Past past) c'.scene
  callClosure : ∀ (f : Closure) (arguments : List Value) (line : Nat) (c : Chronicle),
    c.Made past → c.Sound known → f.Sound known c.scene → f.Made (c.Past past) c.scene →
    (∀ v ∈ arguments, v.Sound known c.scene) → (∀ v ∈ arguments, v.Made (c.Past past) c.scene) →
    f.function.arity = arguments.length →
    Making past (Watch.callClosure budget f arguments line) c
      fun v c' => v.Made (c'.Past past) c'.scene

section

variable {known : Site → Prop} {past : Step → Prop} {c : Chronicle} {budget : Nat} {p : Position}

/-! ## Lists of parts -/

/-- An expression is evaluated, and what comes behind it is at the same position. That the state is
ready for this is known from the evaluation as a steady run. -/
theorem MakingAt.andThen {β : Type} {e : Expr} {next : Value → Watch β}
    {result : β → Chronicle → Prop} (h : MakingAt known past budget) (made : c.Made past)
    (ready : c.Ready known p) (formed : e.Formed) (sites : ∀ x ∈ e.sites p, known x)
    (hnext : ∀ v c', c'.Made past → c'.Ready known p → v.Made (c'.Past past) c'.scene →
      v.Sound known c'.scene → Making past (next v) c' result) :
    Making past (Watch.evaluate budget e >>= next) c result := by
  have steady := (steadyAt known budget).evaluate e p c ready formed sites
  refine (h.evaluate e p c made ready formed sites).bind steady ?_
  intro v c' made' _ hv sound later hsound
  exact hnext v c' made' (ready.later sound later) hv hsound

theorem MakingAt.values (h : MakingAt known past budget) (es : List Expr) (made : c.Made past)
    (ready : c.Ready known p) (formed : FormedArguments es)
    (sites : ∀ x ∈ sitesInArguments p es, known x) :
    Making past (Watch.values (Watch.evaluate budget) es) c
      fun vs c' => ∀ v ∈ vs, v.Made (c'.Past past) c'.scene := by
  induction es generalizing c with
  | nil => exact making_pure made (by simp)
  | cons e rest ih =>
    obtain ⟨first, others⟩ := known_of_append sites
    refine h.andThen made ready formed.1 first fun v c₁ made₁ ready₁ hv _ => ?_
    refine (ih made₁ ready₁ formed.2 others).next ?_
    intro vs c₂ made₂ onward₂ hvs
    refine making_pure made₂ fun w hw => ?_
    rcases List.mem_cons.mp hw with rfl | hw
    · exact hv.onward onward₂
    · exact hvs w hw

theorem MakingAt.inOrder (h : MakingAt known past budget) (body : List Stmt) (made : c.Made past)
    (ready : c.Ready known p) (formed : FormedBody body) (fits : p.Fits body)
    (sites : ∀ x ∈ sitesInBody p body, known x) :
    Making past (Watch.inOrder (Watch.execute budget) body) c
      fun completion c' => completion.Made (c'.Past past) c'.scene := by
  induction body generalizing c p with
  | nil => exact making_pure made trivial
  | cons st rest ih =>
    obtain ⟨first, others⟩ := known_of_append sites
    refine (h.execute st p c made ready formed.1 fits.single first).bind
      ((steadyAt known budget).execute st p c ready formed.1 fits.single first) ?_
    rintro completion c₁ made₁ onward₁ hcompletion sound₁ later₁ ⟨-, here⟩
    cases completion with
    | normal =>
      exact ih made₁ ⟨sound₁, here, ready.formed.after formed.1 fits.single⟩ formed.2 fits.rest
        others
    | broke => exact making_pure made₁ trivial
    | returned v => exact making_pure made₁ hcompletion

/-! ## Frames of blocks and calls -/

/-- What runs in a frame of its own that is that of a block or a call. -/
theorem MakingAt.entered (h : MakingAt known past budget) {make : Watch FrameId} {record : Record}
    {outer : Option FrameId} {body : List Stmt} (enters : Enters known make record outer body c)
    (explicit : ¬record.region.Implicit)
    (making : Making past make c fun frame c' =>
      frame = c.scene.machine.frames.next ∧ c.scene.Framed record outer c'.scene) :
    Making past
      (make >>= fun frame => Watch.within frame (Watch.inOrder (Watch.execute budget) body)) c
      fun completion c' => completion.Made (c'.Past past) c'.scene := by
  obtain ⟨p, formed, fits, sites, ready⟩ := enters.ready
  refine making.bind enters.steady ?_
  rintro _ c₁ made₁ onward₁ ⟨rfl, framed⟩ sound₁ - -
  have plain : c₁.scene.Plain (some c.scene.machine.frames.next) := by
    rintro _ ⟨⟩
    exact ⟨record, framed.record, explicit⟩
  refine making_within made₁ plain
    (fun inside => h.inOrder body inside (ready c₁ sound₁ framed) formed fits sites) ?_
  intro completion c₂ frame hcompletion
  have retains : c₂.scene.Retains (c₂.scene.withCurrent frame) :=
    .of_keeps (keeps_withCurrent c₂.scene frame) (Nat.le_refl _)
  cases completion with
  | returned v => exact Value.Made.later hcompletion (fun _ h => h) retains
  | _ => trivial

theorem MakingAt.block (h : MakingAt known past budget) {body : List Stmt} (made : c.Made past)
    (ready : c.Ready known p) (formed : FormedBody body)
    (sites : ∀ x ∈ sitesInBody (p.enter (.block body) []) body, known x) :
    Making past
      (do
        let frame ← Watch.framing ⟨.block body, []⟩ (Run.newFrame (← Watch.quietly Run.current))
        Watch.within frame (Watch.inOrder (Watch.execute budget) body)) c
      fun completion c' => completion.Made (c'.Past past) c'.scene := by
  refine h.entered (ready.enters formed sites) id ?_
  refine making_framing made ready.sound.scene.recorded ⟨.block body, []⟩ (by simp [Record.values])
    (fun s framed retains => ?_) (framing_newFrame _ _)
  show s.Plain (s.machine.frames.outer? _)
  rw [framed.outer]
  exact made.scene.current.retains retains

/-- What a call yields was stored, returned, or is `nil`. -/
theorem ensures_callResult (f : Closure) (line : Nat) (completion : Completion) (m : Machine) :
    Ensures (Evaluation.callResult f line completion) m
      (fun v m' => m' = m ∧ (m.Stores v ∨ completion = .returned v ∨ v = .nil))
      fun _ m' => m' = m := by
  unfold Evaluation.callResult
  split
  · cases f.frame with
    | none => exact rfl
    | some frame =>
      unfold Ensures slotValue
      cases hholder : m.frames.holder frame 0 0 with
      | ok holder =>
        simp only [Frames.get_eq_ok _ hholder]
        exact ⟨trivial, .inl (stores_slot hholder)⟩
      | error fault =>
        simp only [Frames.get_eq_error _ hholder]
  · cases completion with
    | returned v => exact ⟨rfl, .inr (.inl rfl)⟩
    | normal => exact ⟨rfl, .inr (.inr rfl)⟩
    | broke => exact ⟨rfl, .inr (.inr rfl)⟩

/-- The body of a closure that was made, in the frame of its call. -/
theorem MakingAt.call (h : MakingAt known past budget) {f : Closure} {arguments : List Value}
    (line : Nat) (made : c.Made past) (sound : c.Sound known) (hsound : f.Sound known c.scene)
    (hf : f.Made (c.Past past) c.scene) (harguments : ∀ v ∈ arguments, v.Sound known c.scene)
    (hmade : ∀ v ∈ arguments, v.Made (c.Past past) c.scene)
    (arity : f.function.arity = arguments.length) :
    Making past (Watch.callClosure (budget + 1) f arguments line) c
      fun v c' => v.Made (c'.Past past) c'.scene := by
  have hframing := framing_callRecord arity c.scene.machine
  have hmaking := making_framing made sound.scene.recorded (Watch.callRecord f.function arguments)
    (by rwa [values_callRecord arity])
    (fun s framed retains => ⟨f, hf.later (fun _ h => h) retains, rfl, framed.outer⟩) hframing
  unfold Watch.callClosure
  rw [← bind_assoc]
  refine (h.entered (hsound.enters sound harguments arity) id hmaking).next ?_
  intro completion c₁ made₁ onward₁ hcompletion
  refine (making_unchanged made₁ (ensures_callResult f line completion _)).mono ?_
  rintro v c₁ - ⟨hv, rfl⟩
  rcases hv with hv | rfl | rfl
  · exact made₁.scene.stored v hv
  · exact hcompletion
  · trivial

/-! ## Calls -/

theorem MakingAt.instantiate (h : MakingAt known past budget) {type : Class}
    {arguments : List Value} (line : Nat) (made : c.Made past) (sound : c.Sound known)
    (hsound : type.Sound known c.scene) (htype : type.Made (c.Past past) c.scene)
    (harguments : ∀ v ∈ arguments, v.Sound known c.scene)
    (hmade : ∀ v ∈ arguments, v.Made (c.Past past) c.scene)
    (arity : type.arity = arguments.length) :
    Making past (Watch.instantiate (Watch.callClosure budget) type arguments line) c
      fun v c' => v.Made (c'.Past past) c'.scene := by
  have hnew : Making past (Watch.quietly Run.newObject) c
      fun id c' => id < c'.scene.machine.objects.size := by
    refine ((making_quietly made quiet_newObject).erased (Watch.erases_quietly _)).mono ?_
    rintro _ c' - ⟨rfl, hrun⟩
    rw [← (EStateM.Result.ok.inj hrun).2, Array.size_push]
    exact Nat.lt_succ_self _
  refine hnew.bind (steady_quietly sound quiet_newObject) ?_
  intro id c₁ made₁ onward₁ hid sound₁ later₁ _
  have htype₁ := htype.later onward₁.more onward₁.retains
  have hsound₁ := hsound.keeps later₁.toKeeps
  have hcreated : (Value.instanceOf id type).Made (c₁.Past past) c₁.scene := ⟨htype₁, hid⟩
  -- The result is the new instance, whatever an initializer comes to.
  split
  · next initializer hfound =>
    have harity : initializer.function.arity = arguments.length := by
      unfold Class.arity at arity
      rwa [hfound] at arity
    have hmethod := (htype₁.findMethod hfound).2
    have answers : (Value.instanceOf id type).Answers .instances := trivial
    refine (making_bind made₁ sound₁.scene.recorded hmethod answers hcreated).bind
      (steady_bind sound₁ (hsound₁.findMethod hfound) hsound₁) ?_
    rintro f c₂ made₂ onward₂ hf sound₂ later₂ ⟨hfunction, hfsound⟩
    have later := later₁.trans later₂
    have onward := onward₁.trans onward₂
    refine (h.callClosure f arguments line c₂ made₂ sound₂ hfsound hf
      (fun v hv => (harguments v hv).keeps later.toKeeps)
      (fun v hv => (hmade v hv).onward onward) (by rw [hfunction, harity])).next ?_
    intro _ c₃ made₃ onward₃ _
    exact making_pure made₃ (hcreated.onward (onward₂.trans onward₃))
  · exact making_pure made₁ hcreated

theorem MakingAt.callValue (h : MakingAt known past budget) {callee : Value}
    {arguments : List Value} (line : Nat) (made : c.Made past) (sound : c.Sound known)
    (hsound : callee.Sound known c.scene) (hcallee : callee.Made (c.Past past) c.scene)
    (harguments : ∀ v ∈ arguments, v.Sound known c.scene)
    (hmade : ∀ v ∈ arguments, v.Made (c.Past past) c.scene) :
    Making past (Watch.callValue (Watch.callClosure budget) callee arguments line) c
      fun v c' => v.Made (c'.Past past) c'.scene := by
  have hchecked : ∀ expected, Making past
      (Watch.quietly (Evaluation.checkArity expected arguments line)) c
      fun _ c' => expected = arguments.length ∧ c' = c :=
    fun expected => making_inert made (inert_checkArity expected arguments line)
  cases callee with
  | native native =>
    refine (hchecked _).next ?_
    rintro - c' made' - ⟨-, rfl⟩
    exact making_value made' (quiet_callNative made_of_bare native arguments line)
  | function id f =>
    refine (hchecked _).next ?_
    rintro - c' made' - ⟨harity, rfl⟩
    exact h.callClosure f arguments line c' made' sound hsound hcallee harguments hmade harity
  | classValue type =>
    refine (hchecked _).next ?_
    rintro - c' made' - ⟨harity, rfl⟩
    exact h.instantiate line made' sound hsound hcallee harguments hmade harity
  | arrayMethod array method =>
    refine (hchecked _).next ?_
    rintro - c' made' - ⟨-, rfl⟩
    exact making_value made'
      (quiet_callArrayMethod made_of_bare made'.scene.stored array method hmade line)
  | _ => exact making_fail made

/-! ## Expressions -/

/-- A variable that is read where it is evaluated. -/
theorem making_marked_lookUp (made : c.Made past) (moment : Moment) (id : RefId) (name : String)
    (line : Nat) :
    Making past (Watch.mark moment >>= fun _ => Watch.quietly (Run.lookUp id name line)) c
      fun v c' => v.Made (c'.Past past) c'.scene := by
  refine Making.mark made fun made' => (making_lookUp made' id name line).mono ?_
  rintro v c' - ⟨hv, rfl⟩
  exact hv

/-- Evaluation of an expression, with evaluation of its parts at hand. -/
theorem MakingAt.evaluate_succ (h : MakingAt known past budget) (e : Expr) (made : c.Made past)
    (ready : c.Ready known p) (formed : e.Formed) (sites : ∀ x ∈ e.sites p, known x) :
    Making past (Watch.evaluate (budget + 1) e) c
      fun v c' => v.Made (c'.Past past) c'.scene := by
  have site : Moment.Known known p (.evaluating e) := by
    refine ⟨sites _ (e.mem_sites p), ?_⟩
    rintro _ ⟨⟩
    exact ⟨formed, sites⟩
  unfold Watch.evaluate
  cases e with
  | literal value =>
    refine Making.mark made fun made => making_pure made ?_
    cases value <;> trivial
  | grouping inner =>
    exact Making.mark made fun made =>
      h.evaluate inner p _ made (ready.mark site rfl) formed (known_of_cons sites).2
  | unary op line operand =>
    refine Making.mark made fun made => ?_
    refine (h.evaluate operand p _ made (ready.mark site rfl) formed
      (known_of_cons sites).2).next ?_
    exact fun v c' made' _ _ => making_value made' (quiet_apply made_of_bare op line v)
  | binary left op line right =>
    obtain ⟨first, second⟩ := known_of_append (known_of_cons sites).2
    refine Making.mark made fun made => ?_
    refine h.andThen made (ready.mark site rfl) formed.1 first fun l c₁ made₁ ready₁ _ _ => ?_
    refine (h.evaluate right p _ made₁ ready₁ formed.2 second).next ?_
    exact fun r c₂ made₂ _ hr => making_value made₂ (quiet_applyBoth made_of_bare op line l hr)
  | logical left op line right =>
    obtain ⟨first, second⟩ := known_of_append (known_of_cons sites).2
    refine Making.mark made fun made => ?_
    refine h.andThen made (ready.mark site rfl) formed.1 first fun l c₁ made₁ ready₁ hl _ => ?_
    split
    · exact making_pure made₁ hl
    · exact h.evaluate right p _ made₁ ready₁ formed.2 second
  | conditional condition thenBranch elseBranch =>
    obtain ⟨others, third⟩ := known_of_append (known_of_cons sites).2
    obtain ⟨first, second⟩ := known_of_append others
    refine Making.mark made fun made => ?_
    refine h.andThen made (ready.mark site rfl) formed.1 first fun v c₁ made₁ ready₁ _ _ => ?_
    split
    · exact h.evaluate thenBranch p _ made₁ ready₁ formed.2.1 second
    · exact h.evaluate elseBranch p _ made₁ ready₁ formed.2.2 third
  | «variable» ref => exact making_marked_lookUp made _ ref.id ref.name.text ref.name.line
  | assign ref value =>
    obtain ⟨first, last⟩ := known_of_append (known_of_cons sites).2
    refine Making.mark made fun made => ?_
    refine h.andThen made (ready.mark site rfl) formed.2 first fun v c₁ made₁ ready₁ hv _ => ?_
    refine Making.mark made₁ fun made₂ => ?_
    -- The value is made before the variable is looked for, and stays so.
    have hv₂ := hv.onward (c₁.onward_mark (.storing ref))
    refine (making_assign made₂ ready₁.sound.scene ready₁.here ready.formed
      (last _ List.mem_cons_self) formed.1 hv₂).next ?_
    exact fun _ c₃ made₃ onward₃ _ => making_pure made₃ (hv₂.onward onward₃)
  | call callee arguments line =>
    obtain ⟨first, others⟩ := known_of_append (known_of_cons sites).2
    refine Making.mark made fun made => ?_
    refine h.andThen made (ready.mark site rfl) formed.1 first
      fun f c₁ made₁ ready₁ hf hfsound => ?_
    -- Soundness of the arguments is known from a steady run, beside what has been made.
    have steady := (steadyAt known budget).values arguments ready₁ formed.2 others
    refine (h.values arguments made₁ ready₁ formed.2 others).bind steady ?_
    intro vs c₂ made₂ onward₂ hvs sound₂ later₂ hvsSound
    exact h.callValue line made₂ sound₂ (hfsound.keeps later₂.toKeeps) (hf.onward onward₂) hvsSound
      hvs
  | get object name =>
    refine Making.mark made fun made => ?_
    refine h.andThen made (ready.mark site rfl) formed (known_of_cons sites).2 ?_
    exact fun v c₁ made₁ ready₁ hv _ =>
      making_property name made₁ ready₁.sound.scene.recorded hv
  | set object name value =>
    obtain ⟨first, second⟩ := known_of_append (known_of_cons sites).2
    refine Making.mark made fun made => ?_
    refine h.andThen made (ready.mark site rfl) formed.1 first fun o c₁ made₁ ready₁ _ _ => ?_
    refine (making_inert made₁ (inert_fieldOwner o name)).next ?_
    rintro owner c₁ made₁ - ⟨-, rfl⟩
    refine (h.evaluate value p _ made₁ ready₁ formed.2 second).next ?_
    intro v c₂ made₂ _ hv
    refine (making_quietly made₂ (quiet_setField hv)).next ?_
    exact fun _ c₃ made₃ onward₃ _ => making_pure made₃ (hv.onward onward₃)
  | this id line => exact making_marked_lookUp made _ id thisName line
  | super id line method =>
    exact Making.mark made fun made =>
      making_superMethod made ready.sound.scene ready.here ready.formed site.site
  | lambda line function =>
    refine Making.mark made fun made => ?_
    refine (making_inert made inert_current).next ?_
    rintro _ c₁ made₁ - ⟨rfl, rfl⟩
    refine (making_quietly made₁ (quiet_toValue _)).mono ?_
    rintro _ c₂ onward₂ ⟨id, rfl⟩
    exact .plain rfl (made₁.scene.current.retains onward₂.retains)

/-! ## Statements -/

/-- A statement that only completes. -/
theorem Making.normally {watch : Watch Unit} {result : Unit → Chronicle → Prop}
    (h : Making past watch c result) :
    Making past (watch >>= fun _ => pure Completion.normal) c
      fun completion c' => completion.Made (c'.Past past) c'.scene :=
  h.next fun _ _ made _ _ => making_pure made trivial

/-- A part of a statement that is itself a statement, and declares nothing. -/
theorem MakingAt.part (h : MakingAt known past budget) {st : Stmt} (made : c.Made past)
    (ready : c.Ready known p) (formed : st.Formed) (hnone : st.declared? = none)
    (sites : ∀ x ∈ st.sites p, known x) :
    Making past (Watch.execute budget st) c
      fun completion c' => completion.Made (c'.Past past) c'.scene :=
  h.execute st p c made ready formed (Position.fits_of_none hnone ready.prefixed) sites

theorem making_declareFunction {name : Name} {function : Function} (made : c.Made past)
    (sound : c.Sound known) :
    Making past
      (do
        let closure := (NamedFunction.mk name function).closure (← Watch.quietly Run.current) false
        Watch.declare name.text (← Watch.quietly closure.toValue)
        return Completion.normal) c
      fun completion c' => completion.Made (c'.Past past) c'.scene := by
  refine (making_inert made inert_current).next ?_
  rintro _ c₁ made₁ - ⟨rfl, rfl⟩
  refine (making_quietly made₁ (quiet_toValue _)).bind (steady_quietly sound (quiet_toValue _)) ?_
  rintro _ c₂ made₂ onward₂ ⟨id, rfl⟩ sound₂ - -
  have hvalue : Value.Made (c₂.Past past) c₂.scene (.function id
      ((NamedFunction.mk name function).closure c₁.scene.machine.current false)) :=
    Closure.Made.plain rfl (made₁.scene.current.retains onward₂.retains)
  exact (making_declare made₂ sound₂.scene.recorded hvalue).normally

theorem MakingAt.declareVariable (h : MakingAt known past budget) {name : Name}
    {initial : Option Expr} (made : c.Made past) (ready : c.Ready known p)
    (code : (Stmt.varDecl name initial).Formed) (fits : p.Fits [.varDecl name initial])
    (sites : ∀ x ∈ (Stmt.varDecl name initial).sites p, known x) :
    Making past
      (do
        let value ← match initial with
          | some e => Watch.evaluate budget e
          | none => pure .nil
        Watch.declare name.text value
        return Completion.normal) c
      fun completion c' => completion.Made (c'.Past past) c'.scene := by
  cases initial with
  | none =>
    have hnil : Making past (Watch.declare name.text .nil) c fun _ _ => True :=
      making_declare made ready.sound.scene.recorded trivial
    exact hnil.normally
  | some e =>
    have ready' : c.Ready known (p.within name.text) :=
      ⟨ready.sound, ready.here.within name.text, ready.formed.within code.1 (fits.name rfl)⟩
    refine h.andThen made ready' code.2 (known_of_cons sites).2 fun v c₁ made₁ ready₁ hv _ => ?_
    exact (making_declare made₁ ready₁.sound.scene.recorded hv).normally

/-- Execution of a statement, with evaluation and execution of its parts at hand. -/
theorem MakingAt.execute_succ (h : MakingAt known past budget) (st : Stmt) (made : c.Made past)
    (ready : c.Ready known p) (formed : st.Formed) (fits : p.Fits [st])
    (sites : ∀ x ∈ st.sites p, known x) :
    Making past (Watch.execute (budget + 1) st) c
      fun completion c' => completion.Made (c'.Past past) c'.scene := by
  have site : Moment.Known known p (.executing st) :=
    ⟨sites _ (st.mem_sites p), fun _ h => by cases h⟩
  have ready := ready.mark site rfl
  unfold Watch.execute
  refine Making.mark made fun made => ?_
  cases st with
  | expression value =>
    refine (h.evaluate value p _ made ready formed (known_of_cons sites).2).next ?_
    exact fun _ c' made' _ _ => making_pure made' trivial
  | print value =>
    refine (h.evaluate value p _ made ready formed (known_of_cons sites).2).next ?_
    intro v c₁ made₁ _ _
    exact Making.normally (making_quietly made₁ (quiet_print v))
  | varDecl name initial => exact h.declareVariable made ready formed fits sites
  | block body => exact h.block made ready formed (known_of_cons sites).2
  | ifThen condition thenBranch elseBranch =>
    cases elseBranch with
    | none =>
      obtain ⟨first, second⟩ := known_of_append (known_of_cons sites).2
      refine h.andThen made ready formed.1 first fun v c₁ made₁ ready₁ _ _ => ?_
      split
      · exact h.part made₁ ready₁ formed.2.1 formed.2.2 second
      · exact making_pure made₁ trivial
    | some elseBranch =>
      obtain ⟨others, third⟩ := known_of_append (known_of_cons sites).2
      obtain ⟨first, second⟩ := known_of_append others
      refine h.andThen made ready formed.1 first fun v c₁ made₁ ready₁ _ _ => ?_
      split
      · exact h.part made₁ ready₁ formed.2.1 formed.2.2.1 second
      · exact h.part made₁ ready₁ formed.2.2.2.1 formed.2.2.2.2 third
  | whileDo condition body =>
    exact h.repeatWhile condition body p _ made ready formed.1 formed.2.1 formed.2.2
      (known_of_cons sites).2
  | breakLoop line => exact making_pure made trivial
  | returnWith line value =>
    cases value with
    | none => exact making_pure made trivial
    | some e =>
      refine (h.evaluate e p _ made ready formed (known_of_cons sites).2).next ?_
      exact fun v c' made' _ hv => making_pure made' hv
  | funDecl declared =>
    obtain ⟨name, function⟩ := declared
    exact making_declareFunction made ready.sound
  | classDecl name superclass traits methods classMethods =>
    exact (making_declareClass made ready formed fits sites (.inr List.mem_cons_self)).normally
  | traitDecl name traits methods =>
    exact (making_declareTrait made ready formed fits sites (.inr List.mem_cons_self)).normally

/-! ## Loops -/

/-- One round of a loop, with execution of its parts and of the rounds to come at hand. -/
theorem MakingAt.repeatWhile_succ (h : MakingAt known past budget) {condition : Expr} {body : Stmt}
    (made : c.Made past) (ready : c.Ready known p) (code : condition.Formed)
    (bodyCode : body.Formed) (hnone : body.declared? = none)
    (sites : ∀ x ∈ condition.sites p ++ body.sites p, known x) :
    Making past (Watch.repeatWhile (budget + 1) condition body) c
      fun completion c' => completion.Made (c'.Past past) c'.scene := by
  obtain ⟨first, second⟩ := known_of_append sites
  unfold Watch.repeatWhile
  refine h.andThen made ready code first fun v c₁ made₁ ready₁ _ _ => ?_
  split
  · have steady := (steadyAt known budget).part ready₁ bodyCode hnone second
    refine (h.part made₁ ready₁ bodyCode hnone second).bind steady ?_
    rintro completion c₂ made₂ _ hcompletion sound₂ later₂ ⟨-, here₂⟩
    cases completion with
    | normal =>
      exact h.repeatWhile condition body p c₂ made₂ ⟨sound₂, here₂, ready.formed⟩ code bodyCode
        hnone sites
    | broke => exact making_pure made₂ trivial
    | returned v => exact making_pure made₂ hcompletion
  · exact making_pure made₁ trivial

end

/-! ## Any budget -/

/-- Whatever the budget, evaluation and execution make what they use. -/
theorem makingAt (known : Site → Prop) (past : Step → Prop) (budget : Nat) :
    MakingAt known past budget := by
  induction budget with
  | zero =>
    refine ⟨?_, ?_, ?_, ?_⟩
    · exact fun _ _ _ made _ _ _ => making_exhausted made
    · exact fun _ _ _ made _ _ _ _ => making_exhausted made
    · exact fun _ _ _ _ made _ _ _ _ _ => making_exhausted made
    · exact fun _ _ _ _ made _ _ _ _ _ _ => making_exhausted made
  | succ budget ih =>
    refine ⟨?_, ?_, ?_, ?_⟩
    · exact fun e p c made ready formed sites => ih.evaluate_succ e made ready formed sites
    · exact fun st p c made ready formed fits sites =>
        ih.execute_succ st made ready formed fits sites
    · exact fun _ _ p c made ready code bodyCode hnone sites =>
        ih.repeatWhile_succ made ready code bodyCode hnone sites
    · exact fun f arguments line c made sound hsound hf harguments hmade arity =>
        ih.call line made sound hsound hf harguments hmade arity

/-- A run of a whole program, outside all scopes. -/
theorem making_interpret {known : Site → Prop} {past : Step → Prop} {c : Chronicle} (budget : Nat)
    (program : List Stmt) (made : c.Made past) (ready : c.Ready known [])
    (formed : FormedBody program) (sites : ∀ x ∈ sitesInBody [] program, known x) :
    Making past (Watch.interpret budget program) c fun _ _ => True := by
  induction program generalizing c with
  | nil => exact making_pure made trivial
  | cons st rest ih =>
    obtain ⟨first, others⟩ := known_of_append sites
    have hfits := Position.fits_outside [st]
    refine ((makingAt known past budget).execute st [] c made ready formed.1 hfits first).bind
      ((steadyAt known budget).execute st [] c ready formed.1 hfits first) ?_
    rintro _ c' made' _ _ sound _ ⟨-, here⟩
    rw [Position.after_outside] at here others
    exact ih made' ⟨sound, here, .outside⟩ formed.2 others

end LoxLang
