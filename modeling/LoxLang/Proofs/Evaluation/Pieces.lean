import LoxLang.Proofs.Evaluation.Steady

/-!
# Pieces of a run

What the operations do of which a run is made: operators, objects, arrays and classes leave the
frames as they are. The values that they make or find have every property that values without
closures have, and those that are stored or given.
-/

namespace LoxLang

variable {m : Machine} {new good : Value → Prop}

/-! ## Changes of a machine -/

theorem calm_objects {objects : Array Fields} (size : m.objects.size ≤ objects.size)
    (h : ∀ object name v, (objects.getD object Dictionary.empty).get? name = some v →
      (m.objects.getD object Dictionary.empty).get? name = some v ∨ new v) :
    m.Calm new { m with objects := objects } where
  frames := rfl
  bindings := rfl
  current := rfl
  objects := size
  stored v hv := by
    cases hv with
    | global h => exact .inl (.global h)
    | slot h => exact .inl (.slot h)
    | field hfield => exact (h _ _ _ hfield).imp_left .field
    | element h => exact .inl (.element h)

theorem calm_arrays {arrays : Arrays}
    (h : ∀ array v, v ∈ arrays.getD array #[] → v ∈ m.arrays.getD array #[] ∨ new v) :
    m.Calm new { m with arrays := arrays } where
  frames := rfl
  bindings := rfl
  current := rfl
  objects := Nat.le_refl _
  stored v hv := by
    cases hv with
    | global h => exact .inl (.global h)
    | slot h => exact .inl (.slot h)
    | field h => exact .inl (.field h)
    | element helement => exact (h _ _ helement).imp_left .element

/-- A change of what stores no values. -/
theorem calm_same {m' : Machine} (globals : m'.globals = m.globals) (frames : m'.frames = m.frames)
    (objects : m'.objects = m.objects) (arrays : m'.arrays = m.arrays)
    (bindings : m'.bindings = m.bindings) (current : m'.current = m.current) : m.Calm new m' where
  frames := frames
  bindings := bindings
  current := current
  objects := Nat.le_of_eq (congrArg Array.size objects).symm
  stored v hv := by
    refine .inl ?_
    cases hv with
    | global h => rw [globals] at h; exact .global h
    | slot h => rw [frames] at h; exact .slot h
    | field h => rw [objects] at h; exact .field h
    | element h => rw [arrays] at h; exact .element h

theorem get?_empty (name : String) : (Dictionary.empty : Fields).get? name = none := rfl

theorem quiet_newObject : Quiet new Run.newObject m (· = m.objects.size) := by
  refine ⟨calm_objects (Array.size_push _ ▸ Nat.le_succ _) ?_, rfl⟩
  intro object name v hv
  refine .inl ?_
  rw [Array.getD_eq_getD_getElem?] at hv ⊢
  rw [Array.getElem?_push] at hv
  split at hv
  · rw [Option.getD_some, get?_empty] at hv
    cases hv
  · exact hv

theorem quiet_setField {object : ObjectId} {name : String} {value : Value} (h : new value) :
    Quiet new (Run.setField object name value) m fun _ => True := by
  refine ⟨calm_objects (Nat.le_of_eq Array.size_modify.symm) ?_, trivial⟩
  intro other word v hv
  rw [Array.getD_eq_getD_getElem?, Array.getElem?_modify] at hv
  rw [Array.getD_eq_getD_getElem?]
  split at hv
  · next hsame =>
    subst hsame
    cases hfields : m.objects[object]? with
    | none =>
      rw [hfields] at hv
      exact .inl hv
    | some fields =>
      rw [hfields] at hv
      simp only [Option.map_some, Option.getD_some] at hv ⊢
      rw [Dictionary.get?_insert] at hv
      split at hv
      · cases hv
        exact .inr h
      · exact .inl hv
  · exact .inl hv

theorem quiet_newArray (size : Nat) (h : new .nil) :
    Quiet new (Run.newArray size) m fun _ => True := by
  refine ⟨calm_arrays ?_, trivial⟩
  intro array v hv
  rw [Array.getD_eq_getD_getElem?, Array.getElem?_push] at hv
  rw [Array.getD_eq_getD_getElem?]
  split at hv
  · rw [Option.getD_some, Array.mem_replicate] at hv
    rw [hv.2]
    exact .inr h
  · exact .inl hv

theorem quiet_setElement {array : ArrayId} {index : Nat} {value : Value} (h : new value) :
    Quiet new (Run.setElement array index value) m fun _ => True := by
  refine ⟨calm_arrays ?_, trivial⟩
  intro other v hv
  rw [Array.getD_eq_getD_getElem?, Array.getElem?_modify] at hv
  rw [Array.getD_eq_getD_getElem?]
  split at hv
  · next hsame =>
    subst hsame
    cases helements : m.arrays[array]? with
    | none =>
      rw [helements] at hv
      exact .inl hv
    | some elements =>
      rw [helements] at hv
      simp only [Option.map_some, Option.getD_some] at hv ⊢
      rcases Array.mem_or_eq_of_mem_setIfInBounds hv with hv | rfl
      · exact .inl hv
      · exact .inr h
  · exact .inl hv

theorem quiet_newIdentity : Quiet new Run.newIdentity m fun _ => True :=
  ⟨calm_same rfl rfl rfl rfl rfl rfl, trivial⟩

theorem quiet_readClock : Quiet new Run.readClock m fun _ => True :=
  ⟨calm_same rfl rfl rfl rfl rfl rfl, trivial⟩

theorem quiet_write (line : Nat → Rendering) : Quiet new (Run.write line) m fun _ => True := by
  unfold Quiet Ensures Run.write
  have hordinary := m.sink.receive_ne_failed line
  generalize m.sink.receive line = received at hordinary ⊢
  obtain ⟨sink, _ | stop⟩ := received
  · exact ⟨calm_same rfl rfl rfl rfl rfl rfl, trivial⟩
  · refine ⟨calm_same rfl rfl rfl rfl rfl rfl, ?_⟩
    rintro number cause rfl
    exact absurd rfl (hordinary number cause)

theorem quiet_textOf (value : Value) : Quiet new (Run.textOf value) m fun _ => True := by
  unfold Quiet Ensures Run.textOf
  cases value.text? m.arrays with
  | some text => exact ⟨.refl new m, trivial⟩
  | none => exact ⟨.refl new m, nofun⟩

theorem quiet_lineOf (value : Value) : Quiet new (Run.lineOf value) m fun _ => True :=
  ⟨.refl new m, trivial⟩

theorem quiet_print (value : Value) : Quiet new (Run.print value) m fun _ => True :=
  (quiet_lineOf value).bind fun line _ _ _ => quiet_write line

theorem quiet_room : Quiet new Run.room m fun _ => True :=
  ⟨.refl new m, trivial⟩

theorem inert_current : Inert Run.current m fun frame => frame = m.current :=
  ⟨rfl, rfl⟩

/-! ## Operators -/

/-- A value without closures. -/
def Value.Bare : Value → Prop
  | .function _ _ => False
  | .classValue _ => False
  | .instanceOf _ _ => False
  | .traitValue _ _ => False
  | _ => True

section

variable (bare : ∀ v : Value, v.Bare → good v)
include bare

theorem quiet_apply (op : UnaryOp) (line : Nat) (operand : Value) :
    Quiet new (op.apply line operand) m good := by
  unfold UnaryOp.apply
  split
  · exact quiet_pure (bare _ trivial)
  · exact quiet_pure (bare _ trivial)
  · exact quiet_fail rfl

theorem quiet_onNumbers {line : Nat} {operation : Float → Float → Value} {left right : Value}
    (h : ∀ a b, (operation a b).Bare) :
    Quiet new (onNumbers line operation left right) m good := by
  unfold onNumbers
  split
  · exact quiet_pure (bare _ (h _ _))
  · exact quiet_fail rfl

theorem quiet_sum (line : Nat) (left right : Value) :
    Quiet new (sum line left right) m good := by
  unfold sum
  split
  · exact quiet_pure (bare _ trivial)
  · exact (quiet_textOf _).bind fun _ _ _ _ => quiet_pure (bare _ trivial)
  · exact (quiet_textOf _).bind fun _ _ _ _ => quiet_pure (bare _ trivial)
  · exact quiet_fail rfl

theorem quiet_quotient (line : Nat) (left right : Value) :
    Quiet new (quotient line left right) m good := by
  unfold quotient
  split
  · split
    · exact quiet_fail rfl
    · exact quiet_pure (bare _ trivial)
  · exact quiet_fail rfl

/-- Of the operators with two operands only the comma yields one of them. -/
theorem quiet_applyBoth (op : BinaryOp) (line : Nat) (left : Value) {right : Value}
    (h : good right) : Quiet new (op.apply line left right) m good := by
  cases op with
  | comma => exact quiet_pure h
  | equal => exact quiet_pure (bare _ trivial)
  | notEqual => exact quiet_pure (bare _ trivial)
  | add => exact quiet_sum bare line left right
  | divide => exact quiet_quotient bare line left right
  | _ => exact quiet_onNumbers bare fun _ _ => trivial

end

/-! ## Calls of what is no closure -/

theorem inert_checkArity (expected : Nat) (arguments : List Value) (line : Nat) :
    Inert (Evaluation.checkArity expected arguments line) m
      fun _ => expected = arguments.length := by
  unfold Evaluation.checkArity
  split
  · next h => exact inert_pure h
  · exact inert_fail rfl

theorem quiet_ofExcept {ε α : Type} {line : Nat} {cause : ε → FailureCause} {result : Except ε α}
    (h : ∀ e, (cause e).ordinary = true) :
    Quiet new (Run.ofExcept line cause result) m fun _ => True := by
  cases result with
  | ok a => exact quiet_pure trivial
  | error e => exact quiet_fail (h e)

theorem quiet_callNative (bare : ∀ v : Value, v.Bare → good v) (native : Native)
    (arguments : List Value) (line : Nat) :
    Quiet good (Evaluation.callNative native arguments line) m good := by
  cases native with
  | clock => exact quiet_readClock.bind fun _ _ _ _ => quiet_pure (bare _ trivial)
  | array =>
    exact quiet_room.bind fun _ _ _ _ => (quiet_ofExcept fun _ => rfl).bind fun size _ _ _ =>
      (quiet_newArray size (bare .nil trivial)).bind fun _ _ _ _ => quiet_pure (bare _ trivial)

/-! ## Values that are found -/

theorem stored_of_calm {m' : Machine} (stored : ∀ v, m.Stores v → good v)
    (calm : m.Calm good m') : ∀ v, m'.Stores v → good v := by
  intro v hv
  exact (calm.stored v hv).elim (stored v) id

theorem quiet_arrayLength (array : ArrayId) : Quiet new (Run.arrayLength array) m fun _ => True :=
  ⟨.refl new m, trivial⟩

theorem quiet_element (bare : ∀ v : Value, v.Bare → good v) (stored : ∀ v, m.Stores v → good v)
    (array : ArrayId) (index : Nat) : Quiet new (Run.element array index) m good := by
  refine ⟨.refl new m, ?_⟩
  rw [Array.getD_eq_getD_getElem?]
  cases hfound : (m.arrays.getD array #[])[index]? with
  | none => exact bare .nil trivial
  | some v => exact stored v (.element (Array.mem_of_getElem? hfound))

theorem quiet_callArrayMethod (bare : ∀ v : Value, v.Bare → good v)
    (stored : ∀ v, m.Stores v → good v) (array : ArrayId) (method : ArrayMethod)
    {arguments : List Value} (h : ∀ v ∈ arguments, good v) (line : Nat) :
    Quiet good (Evaluation.callArrayMethod array method arguments line) m good := by
  refine (quiet_arrayLength array).bind fun length m' calm _ => ?_
  refine (quiet_ofExcept fun _ => rfl).bind fun index m'' calm' _ => ?_
  cases method with
  | get => exact quiet_element bare (stored_of_calm stored (calm.trans calm')) array index
  | set =>
    have hvalue : good (arguments.getD 1 .nil) := by
      rw [List.getD_eq_getElem?_getD]
      cases hfound : arguments[1]? with
      | none => exact bare .nil trivial
      | some v => exact h v (List.mem_of_getElem? hfound)
    exact (quiet_setElement hvalue).bind fun _ _ _ _ => quiet_pure hvalue

theorem inert_fieldOwner (object : Value) (name : Name) :
    Inert (fieldOwner object name) m fun _ => True := by
  cases object with
  | instanceOf id type => exact inert_pure trivial
  | classValue c => exact inert_pure trivial
  | _ => exact inert_fail rfl

theorem quiet_toValue (f : Closure) :
    Quiet new f.toValue m fun v => ∃ id, v = .function id f :=
  quiet_newIdentity.bind fun id _ _ _ => quiet_pure ⟨id, rfl⟩

/-- The value in a slot that is there is stored. -/
theorem stores_slot {id : FrameId} {depth slot : Nat} {frame : FrameId}
    (h : m.frames.holder id depth slot = .ok frame) :
    m.Stores ((m.frames.values frame).getD slot .nil) := by
  have hslot := ((Frames.holder_eq_ok m.frames).mp h).2
  rw [Array.getD_eq_getD_getElem?, Array.getElem?_eq_getElem hslot]
  exact .slot (Array.getElem_mem hslot)

theorem quiet_slotValue (stored : ∀ v, m.Stores v → good v) {id : FrameId}
    {depth slot line : Nat} {frame : FrameId} (h : m.frames.holder id depth slot = .ok frame) :
    Quiet new (slotValue id depth slot line) m good := by
  unfold Quiet Ensures slotValue
  rw [Frames.get_eq_ok m.frames h]
  exact ⟨.refl new m, stored _ (stores_slot h)⟩

/-! ## Heads of classes and traits -/

theorem inert_superclassOf (ref : Reference) (value : Value) :
    Inert (superclassOf ref value) m fun c => value = .classValue c := by
  cases value with
  | classValue c => exact inert_pure rfl
  | _ => exact inert_fail rfl

theorem inert_traitOf {ref : Reference} (plain : ref.Plain) (value : Value) :
    Inert (traitOf ref value) m fun t => ∃ id, value = .traitValue id t := by
  cases value with
  | traitValue id t => exact inert_pure ⟨id, rfl⟩
  | _ => exact inert_fail (FailureCause.ordinary_notATrait plain.2.2)

/-- All methods of a table have a property. -/
def Methods.All (P : String → Closure → Prop) (methods : Methods) : Prop :=
  ∀ name f, methods.get? name = some f → P name f

theorem Methods.all_empty (P : String → Closure → Prop) : Methods.All P Dictionary.empty := by
  intro name f hf
  cases hf

theorem Methods.All.insert {P : String → Closure → Prop} {methods : Methods}
    (h : methods.All P) {name : String} {f : Closure} (hf : P name f) :
    Methods.All P (Dictionary.insert methods name f) := by
  intro other g hg
  rw [Dictionary.get?_insert] at hg
  split at hg
  · next hname =>
    cases hg
    exact hname ▸ hf
  · exact h other g hg

theorem inert_addMethods {P : String → Closure → Prop} (line : Nat) {provided : Methods}
    (h : provided.All P) (names : List String) {composed : Methods} (hcomposed : composed.All P) :
    Inert (addMethods line provided names composed) m (Methods.All P) := by
  induction names generalizing composed with
  | nil => exact inert_pure hcomposed
  | cons name rest ih =>
    unfold addMethods
    split
    · exact inert_fail rfl
    · split
      · next method hmethod => exact ih (hcomposed.insert (h name method hmethod))
      · exact ih hcomposed

theorem inert_checkProvided (composed : Methods) (methods : List NamedFunction) :
    Inert (checkProvided composed methods) m fun _ => True := by
  induction methods with
  | nil => exact inert_pure trivial
  | cons method rest ih =>
    unfold checkProvided
    split
    · exact inert_fail rfl
    · exact ih

theorem Methods.All.addBody {P : String → Closure → Prop} {composed : Methods}
    (h : composed.All P) {methods : List NamedFunction} {frame : Option FrameId}
    (hmethods : ∀ f ∈ methods,
      P f.name.text (f.closure frame (f.name.text = initializerName))) :
    Methods.All P (addBody composed methods frame) := by
  induction methods generalizing composed with
  | nil => exact h
  | cons f rest ih =>
    exact ih (h.insert (hmethods f List.mem_cons_self))
      fun g hg => hmethods g (List.mem_cons_of_mem f hg)

theorem all_classMethodTable {P : String → Closure → Prop} {methods : List NamedFunction}
    {frame : Option FrameId} (hmethods : ∀ f ∈ methods, P f.name.text (f.closure frame false)) :
    Methods.All P (classMethodTable methods frame) := by
  have h : ∀ table : Methods, table.All P → Methods.All P (methods.foldl
      (fun table f => table.insert f.name.text (f.closure frame false)) table) := by
    induction methods with
    | nil => exact fun table h => h
    | cons f rest ih =>
      intro table h
      exact ih (fun g hg => hmethods g (List.mem_cons_of_mem f hg)) _
        (h.insert (hmethods f List.mem_cons_self))
  exact h _ (Methods.all_empty P)

end LoxLang
