import LoxLang.Proofs.Evaluation.Recoding
import LoxLang.Proofs.Machine.Frames

/-!
# What no run takes back

However a run ends, the frame that was current before it is so again, the bindings are the same,
no frame is lost or put elsewhere, and of the output nothing is taken back and no fault is to come
that was not to come before (`Machine.Onward`). A run that keeps to this is tidy (`Tidy`), and
evaluation and execution are, with any budget (`tidyAt`). A frame may be another one for the time
of a run, as it is put back behind it.
-/

namespace LoxLang

variable {α β : Type} {m m₁ m₂ : Machine}

/-- An output behind a run, beside the one before it. -/
structure Sink.Onward (s s' : Sink) : Prop where
  written : ∃ text, s'.written = s.written ++ text
  coming : s'.coming <:+ s.coming
  later : s'.later = s.later

theorem Sink.Onward.refl (s : Sink) : s.Onward s where
  written := ⟨"", by rw [String.append_empty]⟩
  coming := List.suffix_refl s.coming
  later := rfl

theorem Sink.Onward.trans {s s₁ s₂ : Sink} (h : s.Onward s₁) (h' : s₁.Onward s₂) :
    s.Onward s₂ where
  written := by
    obtain ⟨text, htext⟩ := h.written
    obtain ⟨more, hmore⟩ := h'.written
    exact ⟨text ++ more, by rw [hmore, htext, String.append_assoc]⟩
  coming := h'.coming.trans h.coming
  later := h'.later.trans h.later

theorem Sink.onward_take (s : Sink) (text : String) : s.Onward (s.take text) where
  written := ⟨text, rfl⟩
  coming := List.tail_suffix s.coming
  later := rfl

theorem Sink.onward_receive (s : Sink) (line : Nat → Rendering) :
    s.Onward (s.receive line).1 := by
  unfold receive
  cases s.fault? with
  | some fault => exact s.onward_take _
  | none => exact s.onward_take _

theorem Sink.Onward.eq_working {written : String} {s' : Sink} (h : (working written).Onward s') :
    s' = .working s'.written := by
  obtain ⟨-, hcoming, hlater⟩ := h
  obtain ⟨written', coming, later⟩ := s'
  obtain rfl : coming = [] := List.suffix_nil.mp hcoming
  obtain rfl : later = none := hlater
  rfl

/-- An output that takes all lines to come. -/
structure Sink.Works (s : Sink) : Prop where
  coming : ∀ fault? ∈ s.coming, fault? = none
  later : s.later = none

theorem Sink.works_working (written : String) : (working written).Works where
  coming := nofun
  later := rfl

/-- An output that works does so behind all that is written to it. -/
theorem Sink.Works.onward {s s' : Sink} (h : s.Works) (h' : s.Onward s') : s'.Works where
  coming fault? hfault := h.coming fault? (h'.coming.mem hfault)
  later := h'.later.trans h.later

theorem Sink.Works.receive_eq {s : Sink} (h : s.Works) (line : Nat → Rendering) :
    s.receive line =
      (s.take (line 0).text, if (line 0).whole then none else some .exhausted) := by
  have hfault : s.fault? = none := by
    unfold fault?
    cases hcoming : s.coming with
    | nil => exact h.later
    | cons fault? rest => exact h.coming fault? (hcoming ▸ List.mem_cons_self)
  unfold receive
  rw [hfault]

/-- A machine behind a run, beside the one before it. -/
structure Machine.Onward (m m' : Machine) : Prop where
  current : m'.current = m.current
  bindings : m'.bindings = m.bindings
  size : m.frames.size ≤ m'.frames.size
  outer : ∀ id < m.frames.size, m'.frames.outer? id = m.frames.outer? id
  sink : m.sink.Onward m'.sink

theorem Machine.Onward.refl (m : Machine) : m.Onward m where
  current := rfl
  bindings := rfl
  size := Nat.le_refl _
  outer _ _ := rfl
  sink := .refl m.sink

theorem Machine.Onward.trans (h : m.Onward m₁) (h' : m₁.Onward m₂) : m.Onward m₂ where
  current := h'.current.trans h.current
  bindings := h'.bindings.trans h.bindings
  size := Nat.le_trans h.size h'.size
  outer id hid := (h'.outer id (Nat.lt_of_lt_of_le hid h.size)).trans (h.outer id hid)
  sink := h.sink.trans h'.sink

/-- A machine in which only values are others. -/
theorem Machine.Onward.of_same (current : m₁.current = m.current)
    (bindings : m₁.bindings = m.bindings) (frames : m₁.frames = m.frames)
    (sink : m₁.sink = m.sink) : m.Onward m₁ where
  current := current
  bindings := bindings
  size := Nat.le_of_eq (by rw [frames])
  outer id _ := by rw [frames]
  sink := sink ▸ .refl m.sink

/-- A machine with other frames, none of which lies elsewhere. -/
theorem Machine.Onward.of_frames {frames : Frames} (size : m.frames.size ≤ frames.size)
    (outer : ∀ id < m.frames.size, frames.outer? id = m.frames.outer? id) :
    m.Onward { m with frames := frames } where
  current := rfl
  bindings := rfl
  size := size
  outer := outer
  sink := .refl m.sink

/-- A run that takes nothing back, from wherever it starts and however it ends. -/
def Tidy (run : Run α) : Prop :=
  ∀ m, Ensures run m (fun _ m' => m.Onward m') fun _ m' => m.Onward m'

section

variable {run : Run α} {next : α → Run β}

theorem tidy_pure (a : α) : Tidy (pure a : Run α) :=
  .refl

theorem tidy_throw (stop : Stop) : Tidy (throw stop : Run α) :=
  .refl

theorem tidy_fail (line : Nat) (cause : FailureCause) : Tidy (Run.fail line cause : Run α) :=
  .refl

theorem Tidy.bind (h : Tidy run) (h' : ∀ a, Tidy (next a)) : Tidy (run >>= next) := by
  intro m
  refine (h m).bind fun a m₁ honward => ?_
  exact (h' a m₁).mono (fun _ _ => honward.trans) fun _ _ => honward.trans

theorem Tidy.map {f : α → β} (h : Tidy run) : Tidy (f <$> run) := by
  rw [map_eq_pure_bind]
  exact h.bind fun a => tidy_pure (f a)

theorem Tidy.ite {condition : Prop} [Decidable condition] {other : Run α} (h : Tidy run)
    (h' : Tidy other) : Tidy (if condition then run else other) := by
  split
  · exact h
  · exact h'

/-- Another frame is the current one only within the run. -/
theorem Tidy.within (h : Tidy run) (frame : FrameId) : Tidy (Run.within frame run) := by
  intro m
  have hinner := h { m with current := some frame }
  unfold Ensures Run.within at *
  cases hrun : run { m with current := some frame } with
  | ok a m' =>
    rw [hrun] at hinner
    exact ⟨rfl, hinner.bindings, hinner.size, hinner.outer, hinner.sink⟩
  | error stop m' =>
    rw [hrun] at hinner
    exact ⟨rfl, hinner.bindings, hinner.size, hinner.outer, hinner.sink⟩

/-- A run that ends with a result and changes nothing but values. -/
theorem tidy_of_same {result : Machine → α} {change : Machine → Machine}
    (h : ∀ m, run m = .ok (result m) (change m))
    (same : ∀ m, (change m).current = m.current ∧ (change m).bindings = m.bindings ∧
      (change m).frames = m.frames ∧ (change m).sink = m.sink) : Tidy run := by
  intro m
  unfold Ensures
  rw [h m]
  obtain ⟨current, bindings, frames, sink⟩ := same m
  exact .of_same current bindings frames sink

end

/-! ## Pieces of a run -/

theorem tidy_ofExcept {ε : Type} (line : Nat) (cause : ε → FailureCause) (result : Except ε α) :
    Tidy (Run.ofExcept line cause result) := by
  cases result with
  | ok a => exact tidy_pure a
  | error e => exact tidy_fail line (cause e)

theorem tidy_newIdentity : Tidy Run.newIdentity :=
  tidy_of_same (fun _ => rfl) fun _ => ⟨rfl, rfl, rfl, rfl⟩

theorem tidy_newObject : Tidy Run.newObject :=
  tidy_of_same (fun _ => rfl) fun _ => ⟨rfl, rfl, rfl, rfl⟩

theorem tidy_newArray (size : Nat) : Tidy (Run.newArray size) :=
  tidy_of_same (fun _ => rfl) fun _ => ⟨rfl, rfl, rfl, rfl⟩

theorem tidy_current : Tidy Run.current :=
  tidy_of_same (fun _ => rfl) fun _ => ⟨rfl, rfl, rfl, rfl⟩

theorem tidy_field? (object : ObjectId) (name : String) : Tidy (Run.field? object name) :=
  tidy_of_same (fun _ => rfl) fun _ => ⟨rfl, rfl, rfl, rfl⟩

theorem tidy_setField (object : ObjectId) (name : String) (value : Value) :
    Tidy (Run.setField object name value) :=
  tidy_of_same (fun _ => rfl) fun _ => ⟨rfl, rfl, rfl, rfl⟩

theorem tidy_arrayLength (array : ArrayId) : Tidy (Run.arrayLength array) :=
  tidy_of_same (fun _ => rfl) fun _ => ⟨rfl, rfl, rfl, rfl⟩

theorem tidy_element (array : ArrayId) (index : Nat) : Tidy (Run.element array index) :=
  tidy_of_same (fun _ => rfl) fun _ => ⟨rfl, rfl, rfl, rfl⟩

theorem tidy_setElement (array : ArrayId) (index : Nat) (value : Value) :
    Tidy (Run.setElement array index value) :=
  tidy_of_same (fun _ => rfl) fun _ => ⟨rfl, rfl, rfl, rfl⟩

theorem tidy_textOf (value : Value) : Tidy (Run.textOf value) := by
  intro m
  unfold Ensures Run.textOf
  cases value.text? m.arrays <;> exact .refl m

theorem tidy_lineOf (value : Value) : Tidy (Run.lineOf value) :=
  tidy_of_same (fun _ => rfl) fun _ => ⟨rfl, rfl, rfl, rfl⟩

theorem tidy_room : Tidy Run.room :=
  tidy_of_same (fun _ => rfl) fun _ => ⟨rfl, rfl, rfl, rfl⟩

theorem tidy_readClock : Tidy Run.readClock :=
  tidy_of_same (fun _ => rfl) fun _ => ⟨rfl, rfl, rfl, rfl⟩

theorem tidy_newFrame (outer : Option FrameId) : Tidy (Run.newFrame outer) := by
  intro m
  have hsize : m.frames.size ≤ (m.frames.alloc outer).size := by
    rw [Frames.size_alloc]
    exact Nat.le_succ _
  exact Machine.Onward.of_frames hsize fun _ hid => Frames.outer?_alloc_of_lt _ outer hid

theorem onward_define (frame : FrameId) (value : Value) :
    m.Onward { m with frames := m.frames.define frame value } :=
  .of_frames (Nat.le_of_eq (Frames.size_define _ _ _).symm) fun other hother =>
    Frames.outer?_define _ frame other value hother

theorem tidy_define (frame : FrameId) (value : Value) : Tidy (Run.define frame value) :=
  fun _ => onward_define frame value

theorem tidy_defineAll (frame : FrameId) (values : List Value) :
    Tidy (Run.defineAll frame values) := by
  induction values with
  | nil => exact tidy_pure ()
  | cons value rest ih => exact (tidy_define frame value).bind fun _ => ih

theorem tidy_write (line : Nat → Rendering) : Tidy (Run.write line) := by
  intro m
  unfold Ensures Run.write
  have hsink := m.sink.onward_receive line
  generalize m.sink.receive line = received at hsink ⊢
  obtain ⟨sink, _ | stop⟩ := received
  · exact ⟨rfl, rfl, Nat.le_refl _, fun _ _ => rfl, hsink⟩
  · exact ⟨rfl, rfl, Nat.le_refl _, fun _ _ => rfl, hsink⟩

theorem tidy_print (value : Value) : Tidy (Run.print value) :=
  (tidy_lineOf value).bind fun _ => tidy_write _

theorem tidy_boundHere? (id : RefId) : Tidy (boundHere? id) := by
  intro m
  unfold Ensures boundHere?
  cases m.bindings[id]? with
  | none => exact .refl m
  | some b => cases m.current <;> exact .refl m

theorem tidy_slotValue (frame : FrameId) (depth slot line : Nat) :
    Tidy (slotValue frame depth slot line) := by
  intro m
  unfold Ensures slotValue
  cases m.frames.get frame depth slot <;> exact .refl m

theorem tidy_lookUp (id : RefId) (name : String) (line : Nat) : Tidy (Run.lookUp id name line) := by
  have hglobal : Tidy (globalValue name line) := by
    intro m
    unfold Ensures globalValue
    cases m.globals.get? name <;> exact .refl m
  rw [lookUp_eq]
  refine (tidy_boundHere? id).bind fun bound => ?_
  cases bound with
  | some bound => exact tidy_slotValue _ _ _ _
  | none => exact hglobal

theorem tidy_assign (id : RefId) (name : String) (line : Nat) (value : Value) :
    Tidy (Run.assign id name line value) := by
  have hslot : ∀ frame depth slot, Tidy (assignSlot frame depth slot line value) := by
    intro frame depth slot m
    unfold Ensures assignSlot
    cases m.frames.holder frame depth slot with
    | error fault => exact .refl m
    | ok holder =>
      exact .of_frames (Nat.le_of_eq (Frames.size_replace _ _ _ _).symm) fun other hother =>
        Frames.outer?_replace _ holder other slot value hother
  have hglobal : Tidy (assignGlobal name line value) := by
    intro m
    unfold Ensures assignGlobal
    cases m.globals.contains name with
    | false => exact .refl m
    | true => exact .of_same rfl rfl rfl rfl
  rw [assign_eq]
  refine (tidy_boundHere? id).bind fun bound => ?_
  cases bound with
  | some bound => exact hslot _ _ _
  | none => exact hglobal

theorem tidy_declare (name : String) (value : Value) : Tidy (Run.declare name value) := by
  intro m
  unfold Ensures
  cases hcurrent : m.current with
  | some frame =>
    have hrun : Run.declare name value m =
        .ok () { m with frames := m.frames.define frame value } := by
      simp only [Run.declare, hcurrent]
    rw [hrun]
    exact onward_define frame value
  | none =>
    have hrun : Run.declare name value m =
        .ok () { m with globals := m.globals.insert name value } := by
      simp only [Run.declare, hcurrent]
    rw [hrun]
    exact .of_same rfl rfl rfl rfl

/-! ## Operators -/

theorem tidy_apply (op : UnaryOp) (line : Nat) (operand : Value) :
    Tidy (op.apply line operand) := by
  unfold UnaryOp.apply
  split
  · exact tidy_pure _
  · exact tidy_pure _
  · exact tidy_fail _ _

theorem tidy_onNumbers (line : Nat) (operation : Float → Float → Value) (left right : Value) :
    Tidy (onNumbers line operation left right) := by
  unfold onNumbers
  split
  · exact tidy_pure _
  · exact tidy_fail _ _

theorem tidy_sum (line : Nat) (left right : Value) : Tidy (sum line left right) := by
  unfold sum
  split
  · exact tidy_pure _
  · exact (tidy_textOf _).bind fun _ => tidy_pure _
  · exact (tidy_textOf _).bind fun _ => tidy_pure _
  · exact tidy_fail _ _

theorem tidy_quotient (line : Nat) (left right : Value) : Tidy (quotient line left right) := by
  unfold quotient
  split
  · exact (tidy_fail _ _).ite (tidy_pure _)
  · exact tidy_fail _ _

theorem tidy_applyBoth (op : BinaryOp) (line : Nat) (left right : Value) :
    Tidy (op.apply line left right) := by
  cases op with
  | comma => exact tidy_pure _
  | equal => exact tidy_pure _
  | notEqual => exact tidy_pure _
  | add => exact tidy_sum line left right
  | divide => exact tidy_quotient line left right
  | _ => exact tidy_onNumbers line _ left right

/-! ## Objects -/

theorem tidy_toValue (f : Closure) : Tidy f.toValue :=
  tidy_newIdentity.bind fun _ => tidy_pure _

theorem tidy_bindMethod (method : Closure) (receiver : Value) : Tidy (method.bind receiver) :=
  (tidy_newFrame method.frame).bind fun frame =>
    (tidy_define frame receiver).bind fun _ => tidy_pure _

theorem tidy_bindFound (found : Option Closure) (receiver : Value) (name : Name) :
    Tidy (bindFound found receiver name) := by
  cases found with
  | some method => exact (tidy_bindMethod method receiver).bind tidy_toValue
  | none => exact tidy_fail _ _

theorem tidy_arrayProperty (array : ArrayId) (name : Name) : Tidy (arrayProperty array name) := by
  refine Tidy.ite ?_ (Tidy.ite (tidy_pure _) (Tidy.ite (tidy_pure _) (tidy_fail _ _)))
  exact (tidy_arrayLength array).bind fun _ => tidy_pure _

theorem tidy_property (object : Value) (name : Name) : Tidy (property object name) := by
  cases object with
  | instanceOf id type =>
    refine (tidy_field? id name.text).bind fun field => ?_
    cases field with
    | some value => exact tidy_pure value
    | none => exact tidy_bindFound _ _ name
  | classValue c =>
    refine (tidy_field? c.id name.text).bind fun field => ?_
    cases field with
    | some value => exact tidy_pure value
    | none => exact tidy_bindFound _ _ name
  | array id => exact tidy_arrayProperty id name
  | _ => exact tidy_fail _ _

theorem tidy_fieldOwner (object : Value) (name : Name) : Tidy (fieldOwner object name) := by
  cases object with
  | instanceOf id type => exact tidy_pure id
  | classValue c => exact tidy_pure c.id
  | _ => exact tidy_fail _ _

theorem tidy_superTarget (id : RefId) (line : Nat) (name : Name) :
    Tidy (superTarget id line name) := by
  refine (tidy_boundHere? id).bind fun bound => ?_
  cases bound with
  | none => exact tidy_fail _ _
  | some bound =>
    obtain ⟨⟨depth, slot⟩, frame⟩ := bound
    refine (tidy_slotValue frame depth slot line).bind fun superclass => ?_
    cases superclass with
    | classValue c =>
      cases depth with
      | zero => exact tidy_fail _ _
      | succ depth =>
        refine (tidy_slotValue frame depth 0 line).bind fun receiver => ?_
        cases receiver <;> exact tidy_pure _
    | _ => exact tidy_fail _ _

theorem tidy_superMethod (id : RefId) (line : Nat) (name : Name) :
    Tidy (superMethod id line name) :=
  (tidy_superTarget id line name).bind fun _ => tidy_bindFound _ _ _

/-! ## Classes and traits -/

theorem tidy_superclassOf (ref : Reference) (value : Value) : Tidy (superclassOf ref value) := by
  cases value with
  | classValue c => exact tidy_pure c
  | _ => exact tidy_fail _ _

theorem tidy_traitOf (ref : Reference) (value : Value) : Tidy (traitOf ref value) := by
  cases value with
  | traitValue id t => exact tidy_pure t
  | _ => exact tidy_fail _ _

theorem tidy_addMethods (line : Nat) (provided : Methods) (names : List String)
    (composed : Methods) : Tidy (addMethods line provided names composed) := by
  induction names generalizing composed with
  | nil => exact tidy_pure composed
  | cons name rest ih =>
    unfold addMethods
    refine (tidy_fail _ _).ite ?_
    cases provided.get? name <;> exact ih _

theorem tidy_addTraits (traits : List Reference) (composed : Methods) :
    Tidy (addTraits traits composed) := by
  induction traits generalizing composed with
  | nil => exact tidy_pure composed
  | cons ref rest ih =>
    refine (tidy_lookUp _ _ _).bind fun v => (tidy_traitOf ref v).bind fun used => ?_
    exact (tidy_addMethods _ _ _ composed).bind ih

theorem tidy_checkProvided (composed : Methods) (methods : List NamedFunction) :
    Tidy (checkProvided composed methods) := by
  induction methods with
  | nil => exact tidy_pure ()
  | cons method rest ih => exact (tidy_fail _ _).ite ih

theorem tidy_composeTraits (traits : List Reference) (methods : List NamedFunction) :
    Tidy (composeTraits traits methods) :=
  (tidy_addTraits traits _).bind fun composed =>
    (tidy_checkProvided composed methods).bind fun _ => tidy_pure composed

theorem tidy_methodFrame (superclass : Option Class) : Tidy (methodFrame superclass) := by
  cases superclass with
  | none => exact tidy_current
  | some c =>
    exact tidy_current.bind fun outer => (tidy_newFrame outer).bind fun frame =>
      (tidy_define frame (.classValue c)).bind fun _ => tidy_pure _

theorem tidy_newClass (name : Name) (extended : Option Class) (composed : Methods)
    (frame : Option FrameId) (methods classMethods : List NamedFunction) :
    Tidy (newClass name extended composed frame methods classMethods) :=
  tidy_newObject.bind fun _ => tidy_newObject.bind fun _ => tidy_pure _

theorem tidy_declareClass (name : Name) (superclass : Option Reference) (traits : List Reference)
    (methods classMethods : List NamedFunction) :
    Tidy (declareClass name superclass traits methods classMethods) := by
  have hrest : ∀ extended : Option Class, Tidy (do
      let composed ← composeTraits traits methods
      let frame ← methodFrame extended
      let declared ← newClass name extended composed frame methods classMethods
      Run.declare name.text (.classValue declared)) :=
    fun extended => (tidy_composeTraits traits methods).bind fun composed =>
      (tidy_methodFrame extended).bind fun frame =>
        (tidy_newClass name extended composed frame methods classMethods).bind fun declared =>
          tidy_declare name.text (.classValue declared)
  cases superclass with
  | none => exact hrest none
  | some ref =>
    exact (tidy_lookUp _ _ _).bind fun v => (tidy_superclassOf ref v).map.bind hrest

theorem tidy_declareTrait (name : Name) (traits : List Reference) (methods : List NamedFunction) :
    Tidy (declareTrait name traits methods) :=
  (tidy_composeTraits traits methods).bind fun _ => tidy_current.bind fun _ =>
    tidy_newIdentity.bind fun _ => tidy_declare _ _

/-! ## Calls -/

open Evaluation

theorem tidy_inOrder {execute : Stmt → Run Completion} (h : ∀ s, Tidy (execute s))
    (body : List Stmt) : Tidy (inOrder execute body) := by
  induction body with
  | nil => exact tidy_pure _
  | cons s rest ih =>
    refine (h s).bind fun completion => ?_
    cases completion with
    | normal => exact ih
    | broke => exact tidy_pure _
    | returned v => exact tidy_pure _

theorem tidy_values {evaluate : Expr → Run Value} (h : ∀ e, Tidy (evaluate e)) (es : List Expr) :
    Tidy (values evaluate es) := by
  induction es with
  | nil => exact tidy_pure _
  | cons e rest ih => exact (h e).bind fun _ => ih.bind fun _ => tidy_pure _

theorem tidy_checkArity (expected : Nat) (arguments : List Value) (line : Nat) :
    Tidy (checkArity expected arguments line) :=
  Tidy.ite (tidy_pure ()) (tidy_fail _ _)

theorem tidy_callNative (native : Native) (arguments : List Value) (line : Nat) :
    Tidy (callNative native arguments line) := by
  cases native with
  | clock => exact tidy_readClock.bind fun _ => tidy_pure _
  | array =>
    exact tidy_room.bind fun _ => (tidy_ofExcept _ _ _).bind fun size =>
      (tidy_newArray size).bind fun _ => tidy_pure _

theorem tidy_callArrayMethod (array : ArrayId) (method : ArrayMethod) (arguments : List Value)
    (line : Nat) : Tidy (callArrayMethod array method arguments line) := by
  refine (tidy_arrayLength array).bind fun length => (tidy_ofExcept _ _ _).bind fun index => ?_
  cases method with
  | get => exact tidy_element array index
  | set => exact (tidy_setElement array index _).bind fun _ => tidy_pure _

theorem tidy_callFrame (closure : Closure) (arguments : List Value) :
    Tidy (callFrame closure arguments) :=
  (tidy_newFrame closure.frame).bind fun frame =>
    (tidy_defineAll frame arguments).bind fun _ => tidy_pure frame

theorem tidy_callResult (closure : Closure) (line : Nat) (completion : Completion) :
    Tidy (callResult closure line completion) := by
  refine Tidy.ite ?_ ?_
  · cases closure.frame with
    | some frame => exact tidy_slotValue frame 0 0 line
    | none => exact tidy_fail _ _
  · cases completion <;> exact tidy_pure _

section

variable {call : Closure → List Value → Nat → Run Value}
  (h : ∀ closure arguments line, Tidy (call closure arguments line))
include h

theorem tidy_instantiate (type : Class) (arguments : List Value) (line : Nat) :
    Tidy (instantiate call type arguments line) := by
  refine tidy_newObject.bind fun created => ?_
  cases type.findMethod? initializerName with
  | some initializer =>
    exact (tidy_bindMethod initializer _).bind fun bound =>
      (h bound arguments line).bind fun _ => tidy_pure _
  | none => exact tidy_pure _

theorem tidy_callValue (callee : Value) (arguments : List Value) (line : Nat) :
    Tidy (callValue call callee arguments line) := by
  cases callee with
  | native native =>
    exact (tidy_checkArity _ _ _).bind fun _ => tidy_callNative native arguments line
  | function id closure => exact (tidy_checkArity _ _ _).bind fun _ => h closure arguments line
  | classValue type =>
    exact (tidy_checkArity _ _ _).bind fun _ => tidy_instantiate h type arguments line
  | arrayMethod array method =>
    exact (tidy_checkArity _ _ _).bind fun _ => tidy_callArrayMethod array method arguments line
  | _ => exact tidy_fail _ _

end

/-! ## Any budget -/

/-- With a budget, everything that programs are made of is tidy. -/
structure TidyAt (budget : Nat) : Prop where
  evaluate : ∀ e, Tidy (evaluate budget e)
  execute : ∀ s, Tidy (execute budget s)
  repeatWhile : ∀ condition body, Tidy (repeatWhile budget condition body)
  call : ∀ closure arguments line, Tidy (callClosure budget closure arguments line)

variable {budget : Nat}

theorem TidyAt.evaluate_succ (h : TidyAt budget) (e : Expr) :
    Tidy (LoxLang.evaluate (budget + 1) e) := by
  unfold LoxLang.evaluate
  cases e with
  | literal value => exact tidy_pure _
  | grouping inner => exact h.evaluate inner
  | unary op line operand => exact (h.evaluate operand).bind (tidy_apply op line)
  | binary left op line right =>
    exact (h.evaluate left).bind fun v => (h.evaluate right).bind (tidy_applyBoth op line v)
  | logical left op line right =>
    exact (h.evaluate left).bind fun _ => (tidy_pure _).ite (h.evaluate right)
  | conditional condition thenBranch elseBranch =>
    exact (h.evaluate condition).bind fun _ => (h.evaluate thenBranch).ite (h.evaluate elseBranch)
  | «variable» ref => exact tidy_lookUp _ _ _
  | assign ref value =>
    exact (h.evaluate value).bind fun v => (tidy_assign _ _ _ v).bind fun _ => tidy_pure v
  | call callee arguments line =>
    exact (h.evaluate callee).bind fun f => (tidy_values h.evaluate arguments).bind fun vs =>
      tidy_callValue h.call f vs line
  | get object name => exact (h.evaluate object).bind fun v => tidy_property v name
  | set object name value =>
    exact (h.evaluate object).bind fun o => (tidy_fieldOwner o name).bind fun owner =>
      (h.evaluate value).bind fun v => (tidy_setField owner _ v).bind fun _ => tidy_pure v
  | this id line => exact tidy_lookUp _ _ _
  | super id line method => exact tidy_superMethod id line method
  | lambda line function => exact tidy_current.bind fun _ => tidy_toValue _

theorem TidyAt.execute_succ (h : TidyAt budget) (s : Stmt) :
    Tidy (LoxLang.execute (budget + 1) s) := by
  unfold LoxLang.execute
  cases s with
  | expression value => exact (h.evaluate value).bind fun _ => tidy_pure _
  | print value =>
    exact (h.evaluate value).bind fun v => (tidy_print v).bind fun _ => tidy_pure _
  | varDecl name initial =>
    have hrest : ∀ v, Tidy (Run.declare name.text v >>= fun _ => pure Completion.normal) :=
      fun v => (tidy_declare name.text v).bind fun _ => tidy_pure _
    cases initial with
    | none => exact hrest .nil
    | some e => exact (h.evaluate e).bind hrest
  | block body =>
    exact tidy_current.bind fun outer => (tidy_newFrame outer).bind fun frame =>
      (tidy_inOrder h.execute body).within frame
  | ifThen condition thenBranch elseBranch =>
    refine (h.evaluate condition).bind fun _ => (h.execute thenBranch).ite ?_
    cases elseBranch with
    | none => exact tidy_pure _
    | some other => exact h.execute other
  | whileDo condition body => exact h.repeatWhile condition body
  | breakLoop line => exact tidy_pure _
  | returnWith line value =>
    cases value with
    | none => exact tidy_pure _
    | some e => exact (h.evaluate e).bind fun _ => tidy_pure _
  | funDecl declared =>
    exact tidy_current.bind fun _ => (tidy_toValue _).bind fun f =>
      (tidy_declare _ f).bind fun _ => tidy_pure _
  | classDecl name superclass traits methods classMethods =>
    exact (tidy_declareClass name superclass traits methods classMethods).bind fun _ => tidy_pure _
  | traitDecl name traits methods =>
    exact (tidy_declareTrait name traits methods).bind fun _ => tidy_pure _

theorem TidyAt.repeatWhile_succ (h : TidyAt budget) (condition : Expr) (body : Stmt) :
    Tidy (LoxLang.repeatWhile (budget + 1) condition body) := by
  unfold LoxLang.repeatWhile
  refine (h.evaluate condition).bind fun _ => Tidy.ite ?_ (tidy_pure _)
  refine (h.execute body).bind fun completion => ?_
  cases completion with
  | normal => exact h.repeatWhile condition body
  | broke => exact tidy_pure _
  | returned v => exact tidy_pure _

theorem TidyAt.call_succ (h : TidyAt budget) (closure : Closure) (arguments : List Value)
    (line : Nat) : Tidy (callClosure (budget + 1) closure arguments line) := by
  unfold callClosure
  exact (tidy_callFrame closure arguments).bind fun frame =>
    ((tidy_inOrder h.execute _).within frame).bind (tidy_callResult closure line)

/-- Whatever the budget, evaluation and execution take nothing back. -/
theorem tidyAt (budget : Nat) : TidyAt budget := by
  induction budget with
  | zero =>
    constructor
    · intro e
      unfold evaluate
      exact tidy_throw _
    · intro s
      unfold execute
      exact tidy_throw _
    · intro condition body
      unfold repeatWhile
      exact tidy_throw _
    · intro closure arguments line
      unfold callClosure
      exact tidy_throw _
  | succ budget ih =>
    exact ⟨ih.evaluate_succ, ih.execute_succ, ih.repeatWhile_succ, ih.call_succ⟩

end LoxLang
