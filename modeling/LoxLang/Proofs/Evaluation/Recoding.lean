import LoxLang.Evaluation.Step
import LoxLang.Proofs.Ensures
import LoxLang.Proofs.Machine.Recoding

/-!
# Runs in another code

What a program does depends on its lines only where it reports one, on its references only through
the bindings that they have, and on the names of local variables not at all. So a program in
another code, run on a machine in this code and with a table that binds the references alike, does
the same and ends with the same code in everything (`recodes_interpret`).
-/

namespace LoxLang

variable {α β γ δ : Type}

def Completion.recode (ρ : Recoding) : Completion → Completion
  | .returned value => .returned (value.recode ρ)
  | completion => completion

/-- A table binds the new references as another one binds the old. -/
def Relabelling.Binds (ρ : Relabelling) (old new : Bindings) : Prop :=
  ∀ id, new[ρ.id id]? = old[id]?

/-- A recoding changes the names of bound occurrences only, and binds them as before. -/
structure Recoding.Fits (ρ : Recoding) (old new : Bindings) : Prop where
  binds : ρ.Binds old new
  keeps : ∀ id text, old[id]? = none → ρ.word id text = text

/-- A run does on a machine in another code what another run does, and its result is the result of
that under `g`. If it is one of code that stands in a scope, there is a frame for this scope. -/
def Recodes (ρ : Recoding) (old new : Bindings) (inside : Bool) (g : α → β) (run : Run α)
    (run' : Run β) : Prop :=
  ∀ m : Machine, m.bindings = old → (inside = true → m.current.isSome = true) →
    Ensures run m
      (fun a m' => (m'.bindings = old ∧ m'.current = m.current) ∧
        run' (m.recode ρ new) = .ok (g a) (m'.recode ρ new))
      fun stop m' => (m'.bindings = old ∧ m'.current = m.current) ∧
        ∃ stop', ρ.Stops stop stop' ∧
          run' (m.recode ρ new) = .error stop' (m'.recode ρ new)

variable {ρ : Recoding} {old new : Bindings} {inside : Bool}

section

variable {g : α → β} {k : γ → δ} {run : Run α} {run' : Run β}

theorem recodes_pure {a : α} {b : β} (h : g a = b) :
    Recodes ρ old new inside g (pure a) (pure b) :=
  fun _ hm _ => ⟨⟨hm, rfl⟩, by rw [← h]; rfl⟩

theorem recodes_throw (stop : Stop) :
    Recodes ρ old new inside g (throw stop) (throw (stop.relabel ρ.toRelabelling)) :=
  fun _ hm _ => ⟨⟨hm, rfl⟩, _, .same stop, rfl⟩

theorem recodes_fail (line : Nat) (cause : FailureCause) :
    Recodes ρ old new inside g (Run.fail line cause) (Run.fail (ρ.line line) cause) :=
  recodes_throw (.failed line cause)

theorem Recodes.bind {next : α → Run γ} {next' : β → Run δ}
    (h : Recodes ρ old new inside g run run')
    (h' : ∀ a, Recodes ρ old new inside k (next a) (next' (g a))) :
    Recodes ρ old new inside k (run >>= next) (run' >>= next') := by
  intro m hm hframe
  refine Ensures.bind ((h m hm hframe).mono (fun _ _ => id) ?_) ?_
  · rintro stop m' ⟨hm', stop', hstop, hrun⟩
    refine ⟨hm', stop', hstop, ?_⟩
    simp only [Bind.bind, EStateM.bind, hrun]
  · rintro a m' ⟨⟨hm', hcurrent⟩, hrun⟩
    have hbind : (run' >>= next') (m.recode ρ new) = next' (g a) (m'.recode ρ new) := by
      simp only [Bind.bind, EStateM.bind, hrun]
    rw [hbind, ← hcurrent]
    exact h' a m' hm' (hcurrent ▸ hframe)

theorem Recodes.map {f : α → γ} {f' : β → δ} (h : Recodes ρ old new inside g run run')
    (hf : ∀ a, f' (g a) = k (f a)) : Recodes ρ old new inside k (f <$> run) (f' <$> run') := by
  rw [map_eq_pure_bind, map_eq_pure_bind]
  refine h.bind fun a => ?_
  exact recodes_pure (hf a).symm

/-- What depends on a condition that says the same in another code. -/
theorem Recodes.ite {condition : Prop} [Decidable condition] {other : Run α} {other' : Run β}
    (h : Recodes ρ old new inside g run run') (h' : Recodes ρ old new inside g other other') :
    Recodes ρ old new inside g (if condition then run else other)
      (if condition then run' else other') := by
  split
  · exact h
  · exact h'

end

/-! ## Primitive runs -/

theorem recodes_newIdentity : Recodes ρ old new inside id Run.newIdentity Run.newIdentity :=
  fun _ hm _ => ⟨⟨hm, rfl⟩, rfl⟩

theorem recodes_newObject : Recodes ρ old new inside id Run.newObject Run.newObject := by
  refine fun m hm _ => ⟨⟨hm, rfl⟩, ?_⟩
  simp [Run.newObject, Machine.recode]

theorem recodes_newArray (size : Nat) :
    Recodes ρ old new inside id (Run.newArray size) (Run.newArray size) := by
  refine fun m hm _ => ⟨⟨hm, rfl⟩, ?_⟩
  simp [Run.newArray, Machine.recode, Arrays.recode]

theorem recodes_newFrame (outer : Option FrameId) :
    Recodes ρ old new inside id (Run.newFrame outer) (Run.newFrame outer) := by
  refine fun m hm _ => ⟨⟨hm, rfl⟩, ?_⟩
  simp [Run.newFrame, Machine.recode]

theorem recodes_define (frame : FrameId) (value : Value) :
    Recodes ρ old new inside id (Run.define frame value) (Run.define frame (value.recode ρ)) := by
  refine fun m hm _ => ⟨⟨hm, rfl⟩, ?_⟩
  simp [Run.define, Machine.recode]

theorem recodes_defineAll (frame : FrameId) (values : List Value) :
    Recodes ρ old new inside id (Run.defineAll frame values)
      (Run.defineAll frame (values.map (Value.recode ρ))) := by
  induction values with
  | nil => exact recodes_pure rfl
  | cons value rest ih => exact (recodes_define frame value).bind fun _ => ih

theorem recodes_current : Recodes ρ old new inside id Run.current Run.current :=
  fun _ hm _ => ⟨⟨hm, rfl⟩, rfl⟩

/-- What is run with a frame of its own stands in a scope. -/
theorem Recodes.within {g : α → β} {run : Run α} {run' : Run β}
    (h : Recodes ρ old new true g run run') (frame : FrameId) :
    Recodes ρ old new inside g (Run.within frame run) (Run.within frame run') := by
  intro m hm _
  have hinner := h { m with current := some frame } hm fun _ => rfl
  have hsame : { m.recode ρ new with current := some frame } =
      { m with current := some frame }.recode ρ new := rfl
  unfold Ensures Run.within at *
  rw [hsame]
  cases hrun : run { m with current := some frame } with
  | ok a m' =>
    rw [hrun] at hinner
    obtain ⟨⟨hm', -⟩, hrun'⟩ := hinner
    refine ⟨⟨hm', rfl⟩, ?_⟩
    rw [hrun']
    rfl
  | error stop m' =>
    rw [hrun] at hinner
    obtain ⟨⟨hm', -⟩, stop', hstop, hrun'⟩ := hinner
    refine ⟨⟨hm', rfl⟩, stop', hstop, ?_⟩
    rw [hrun']
    rfl

theorem recodes_field? (object : ObjectId) (name : String) :
    Recodes ρ old new inside (Option.map (Value.recode ρ)) (Run.field? object name)
      (Run.field? object name) := by
  refine fun m hm _ => ⟨⟨hm, rfl⟩, ?_⟩
  unfold Run.field? Machine.recode
  rw [getD_objects_recode, Dictionary.get?_map]

theorem recodes_setField (object : ObjectId) (name : String) (value : Value) :
    Recodes ρ old new inside id (Run.setField object name value)
      (Run.setField object name (value.recode ρ)) := by
  refine fun m hm _ => ⟨⟨hm, rfl⟩, ?_⟩
  have hobjects : (m.objects.map (Dictionary.map (Value.recode ρ))).modify object
        (·.insert name (value.recode ρ)) =
      (m.objects.modify object (·.insert name value)).map (Dictionary.map (Value.recode ρ)) := by
    apply Array.ext_getElem?
    intro i
    simp only [Array.getElem?_modify, Array.getElem?_map]
    split
    · cases m.objects[i]? <;> simp
    · rfl
  simp only [Run.setField, Machine.recode, hobjects, id]

theorem recodes_arrayLength (array : ArrayId) :
    Recodes ρ old new inside id (Run.arrayLength array) (Run.arrayLength array) := by
  refine fun m hm _ => ⟨⟨hm, rfl⟩, ?_⟩
  unfold Run.arrayLength Machine.recode
  rw [Arrays.getD_recode, Array.size_map]
  rfl

theorem recodes_element (array : ArrayId) (index : Nat) :
    Recodes ρ old new inside (Value.recode ρ) (Run.element array index)
      (Run.element array index) := by
  refine fun m hm _ => ⟨⟨hm, rfl⟩, ?_⟩
  have helement : ((m.arrays.getD array #[]).map (Value.recode ρ)).getD index .nil =
      ((m.arrays.getD array #[]).getD index .nil).recode ρ := by
    simp only [Array.getD_eq_getD_getElem?, Array.getElem?_map]
    cases (m.arrays[array]?.getD #[])[index]? <;> rfl
  unfold Run.element Machine.recode
  rw [Arrays.getD_recode, helement]

theorem recodes_setElement (array : ArrayId) (index : Nat) (value : Value) :
    Recodes ρ old new inside id (Run.setElement array index value)
      (Run.setElement array index (value.recode ρ)) := by
  refine fun m hm _ => ⟨⟨hm, rfl⟩, ?_⟩
  have harrays : (Arrays.recode ρ m.arrays).modify array
        (·.setIfInBounds index (value.recode ρ)) =
      Arrays.recode ρ (m.arrays.modify array (·.setIfInBounds index value)) := by
    apply Array.ext_getElem?
    intro i
    simp only [Arrays.recode, Array.getElem?_modify, Array.getElem?_map]
    split
    · cases m.arrays[i]? <;> simp [Array.map_setIfInBounds]
    · rfl
  simp only [Run.setElement, Machine.recode, harrays, id]

theorem recodes_textOf (value : Value) :
    Recodes ρ old new inside id (Run.textOf value) (Run.textOf (value.recode ρ)) := by
  intro m hm _
  have htext : (value.recode ρ).text? (m.recode ρ new).arrays = value.text? m.arrays :=
    Value.text?_recode ρ m.arrays value
  unfold Ensures Run.textOf
  rw [htext]
  cases value.text? m.arrays with
  | some text => exact ⟨⟨hm, rfl⟩, rfl⟩
  | none => exact ⟨⟨hm, rfl⟩, _, .same .exhausted, rfl⟩

theorem recodes_lineOf (value : Value) :
    Recodes ρ old new inside id (Run.lineOf value) (Run.lineOf (value.recode ρ)) := by
  refine fun m hm _ => ⟨⟨hm, rfl⟩, ?_⟩
  simp [Run.lineOf, Machine.recode]

theorem recodes_write (line : Nat → Rendering) :
    Recodes ρ old new inside id (Run.write line) (Run.write line) := by
  intro m hm _
  unfold Ensures
  have hstop := m.sink.receive_ne_failed line
  -- The machine in the other code has the same output.
  have hsink : (m.recode ρ new).sink = m.sink := rfl
  rcases hreceive : m.sink.receive line with ⟨sink, _ | stop⟩
  · rw [Run.write_of_taken hreceive]
    exact ⟨⟨hm, rfl⟩, Run.write_of_taken (hsink ▸ hreceive)⟩
  · rw [Run.write_of_stopped hreceive]
    refine ⟨⟨hm, rfl⟩, stop, ?_, Run.write_of_stopped (hsink ▸ hreceive)⟩
    rw [hreceive] at hstop
    cases stop with
    | failed number cause => exact absurd rfl (hstop number cause)
    | closed message => exact .same (.closed message)
    | exhausted => exact .same .exhausted

theorem recodes_print (value : Value) :
    Recodes ρ old new inside id (Run.print value) (Run.print (value.recode ρ)) :=
  (recodes_lineOf value).bind fun _ => recodes_write _

theorem recodes_room : Recodes ρ old new inside id Run.room Run.room := by
  refine fun m hm _ => ⟨⟨hm, rfl⟩, ?_⟩
  simp [Run.room, Machine.recode, Arrays.recode]

theorem recodes_readClock : Recodes ρ old new inside id Run.readClock Run.readClock :=
  fun _ hm _ => ⟨⟨hm, rfl⟩, rfl⟩

theorem recodes_ofExcept {ε : Type} (line : Nat) (cause : ε → FailureCause) (found : Except ε α) :
    Recodes ρ old new inside id (Run.ofExcept line cause found)
      (Run.ofExcept (ρ.line line) cause found) := by
  cases found with
  | ok a => exact recodes_pure rfl
  | error e => exact recodes_fail line (cause e)

/-! ## Variables -/

/-- The value of a global. -/
def globalValue (name : String) (line : Nat) : Run Value := fun m =>
  match m.globals.get? name with
  | some value => .ok value m
  | none => .error (.failed line (.undefinedVariable name)) m

/-- Give a global that there is a new value. -/
def assignGlobal (name : String) (line : Nat) (value : Value) : Run Unit := fun m =>
  if m.globals.contains name then .ok () { m with globals := m.globals.insert name value }
  else .error (.failed line (.undefinedVariable name)) m

/-- Give the variable in a slot as seen from a frame a new value. -/
def assignSlot (frame : FrameId) (depth slot line : Nat) (value : Value) : Run Unit := fun m =>
  match m.frames.holder frame depth slot with
  | .ok holder => .ok () { m with frames := m.frames.replace holder slot value }
  | .error fault => .error (.failed line (.frame fault)) m

theorem lookUp_eq (id : RefId) (name : String) (line : Nat) :
    Run.lookUp id name line = (do
      match ← boundHere? id with
      | some (b, frame) => slotValue frame b.depth b.slot line
      | none => globalValue name line) := by
  funext m
  simp only [Run.lookUp, boundHere?, bind, EStateM.bind]
  cases m.bindings[id]? with
  | none => rfl
  | some b => cases m.current <;> rfl

theorem assign_eq (id : RefId) (name : String) (line : Nat) (value : Value) :
    Run.assign id name line value = (do
      match ← boundHere? id with
      | some (b, frame) => assignSlot frame b.depth b.slot line value
      | none => assignGlobal name line value) := by
  funext m
  cases hb : m.bindings[id]? with
  | none => simp only [Run.assign, boundHere?, assignGlobal, bind, EStateM.bind, hb]
  | some b =>
    cases hcurrent : m.current with
    | none => simp only [Run.assign, boundHere?, assignGlobal, bind, EStateM.bind, hb, hcurrent]
    | some frame =>
      cases hholder : m.frames.holder frame b.depth b.slot <;>
        simp only [Run.assign, boundHere?, assignSlot, bind, EStateM.bind, hb, hcurrent, hholder]

theorem recodes_boundHere? (fits : ρ.Fits old new) (ref : RefId) :
    Recodes ρ old new inside id (boundHere? ref) (boundHere? (ρ.id ref)) := by
  intro m hm _
  have hbinding : (m.recode ρ new).bindings[ρ.id ref]? = m.bindings[ref]? := by
    rw [hm]
    exact fits.binds ref
  have hcurrent : (m.recode ρ new).current = m.current := rfl
  unfold Ensures boundHere?
  rw [hbinding, hcurrent]
  cases m.bindings[ref]? with
  | none => exact ⟨⟨hm, rfl⟩, rfl⟩
  | some b => cases hframe : m.current <;> exact ⟨⟨hm, hframe⟩, rfl⟩

theorem recodes_slotValue (frame : FrameId) (depth slot line : Nat) :
    Recodes ρ old new inside (Value.recode ρ) (slotValue frame depth slot line)
      (slotValue frame depth slot (ρ.line line)) := by
  intro m hm _
  have hget : (m.recode ρ new).frames.get frame depth slot =
      (m.frames.get frame depth slot).map (Value.recode ρ) := Frames.get_recode ρ _ _ _ _
  unfold Ensures slotValue
  rw [hget]
  cases m.frames.get frame depth slot with
  | ok value => exact ⟨⟨hm, rfl⟩, rfl⟩
  | error fault => exact ⟨⟨hm, rfl⟩, _, .same _, rfl⟩

theorem recodes_globalValue (name : String) (line : Nat) :
    Recodes ρ old new inside (Value.recode ρ) (globalValue name line)
      (globalValue name (ρ.line line)) := by
  intro m hm _
  have hglobal : (m.recode ρ new).globals.get? name =
      (m.globals.get? name).map (Value.recode ρ) := Dictionary.get?_map _ _ _
  unfold Ensures globalValue
  rw [hglobal]
  cases m.globals.get? name with
  | some value => exact ⟨⟨hm, rfl⟩, rfl⟩
  | none => exact ⟨⟨hm, rfl⟩, _, .same _, rfl⟩

theorem recodes_assignSlot (frame : FrameId) (depth slot line : Nat) (value : Value) :
    Recodes ρ old new inside id (assignSlot frame depth slot line value)
      (assignSlot frame depth slot (ρ.line line) (value.recode ρ)) := by
  intro m hm _
  have hholder : (m.recode ρ new).frames.holder frame depth slot =
      m.frames.holder frame depth slot := Frames.holder_recode ρ _ _ _ _
  unfold Ensures assignSlot
  rw [hholder]
  cases m.frames.holder frame depth slot with
  | ok holder => exact ⟨⟨hm, rfl⟩, by simp [Machine.recode]⟩
  | error fault => exact ⟨⟨hm, rfl⟩, _, .same _, rfl⟩

theorem recodes_assignGlobal (name : String) (line : Nat) (value : Value) :
    Recodes ρ old new inside id (assignGlobal name line value)
      (assignGlobal name (ρ.line line) (value.recode ρ)) := by
  intro m hm _
  have hcontains : (m.recode ρ new).globals.contains name = m.globals.contains name :=
    Dictionary.contains_map _ _ _
  unfold Ensures assignGlobal
  rw [hcontains]
  cases m.globals.contains name with
  | true => exact ⟨⟨hm, rfl⟩, by simp [Machine.recode]⟩
  | false => exact ⟨⟨hm, rfl⟩, _, .same _, rfl⟩

/-- An occurrence keeps its name, or it is bound and there is a frame for its scope. -/
theorem Recoding.Fits.referred (fits : ρ.Fits old new) (ref : RefId) (name : String) {m : Machine}
    (hm : m.bindings = old) (hframe : inside = true → m.current.isSome = true) :
    ρ.referred inside ref name = name ∨
      ∃ b frame, m.bindings[ref]? = some b ∧ m.current = some frame := by
  cases inside with
  | false => exact .inl rfl
  | true =>
    cases hbinding : old[ref]? with
    | none => exact .inl (fits.keeps ref name hbinding)
    | some b =>
      obtain ⟨frame, hcurrent⟩ := Option.isSome_iff_exists.mp (hframe rfl)
      exact .inr ⟨b, frame, hm ▸ hbinding, hcurrent⟩

/-- An occurrence that keeps its name, such as `this`. -/
theorem recodes_lookUp_kept (fits : ρ.Fits old new) (ref : RefId) (name : String) (line : Nat) :
    Recodes ρ old new inside (Value.recode ρ) (Run.lookUp ref name line)
      (Run.lookUp (ρ.id ref) name (ρ.line line)) := by
  rw [lookUp_eq, lookUp_eq]
  refine (recodes_boundHere? fits ref).bind fun bound => ?_
  cases bound with
  | some bound => exact recodes_slotValue _ _ _ _
  | none => exact recodes_globalValue _ _

theorem recodes_lookUp (fits : ρ.Fits old new) (ref : RefId) (name : String) (line : Nat) :
    Recodes ρ old new inside (Value.recode ρ) (Run.lookUp ref name line)
      (Run.lookUp (ρ.id ref) (ρ.referred inside ref name) (ρ.line line)) := by
  intro m hm hframe
  have hkept : Recodes ρ old new inside (Value.recode ρ) (Run.lookUp ref name line) _ :=
    recodes_lookUp_kept fits ref name line
  have hrun := hkept m hm hframe
  rcases fits.referred ref name hm hframe with heq | ⟨b, frame, hbinding, hcurrent⟩
  · rwa [heq]
  · -- The name of a bound occurrence is not looked at.
    have hbinding' : (m.recode ρ new).bindings[ρ.id ref]? = some b := by
      rw [← hbinding, hm]
      exact fits.binds ref
    have hcurrent' : (m.recode ρ new).current = some frame := hcurrent
    have heq : Run.lookUp (ρ.id ref) (ρ.referred inside ref name) (ρ.line line)
        (m.recode ρ new) = Run.lookUp (ρ.id ref) name (ρ.line line) (m.recode ρ new) := by
      simp only [Run.lookUp, hbinding', hcurrent']
    rwa [heq]

theorem recodes_assign (fits : ρ.Fits old new) (ref : RefId) (name : String) (line : Nat)
    (value : Value) :
    Recodes ρ old new inside id (Run.assign ref name line value)
      (Run.assign (ρ.id ref) (ρ.referred inside ref name) (ρ.line line) (value.recode ρ)) := by
  have hsame : Recodes ρ old new inside id (Run.assign ref name line value)
      (Run.assign (ρ.id ref) name (ρ.line line) (value.recode ρ)) := by
    rw [assign_eq, assign_eq]
    refine (recodes_boundHere? fits ref).bind fun bound => ?_
    cases bound with
    | some bound => exact recodes_assignSlot _ _ _ _ _
    | none => exact recodes_assignGlobal _ _ _
  intro m hm hframe
  have hrun := hsame m hm hframe
  rcases fits.referred ref name hm hframe with heq | ⟨b, frame, hbinding, hcurrent⟩
  · rwa [heq]
  · have hbinding' : (m.recode ρ new).bindings[ρ.id ref]? = some b := by
      rw [← hbinding, hm]
      exact fits.binds ref
    have hcurrent' : (m.recode ρ new).current = some frame := hcurrent
    have heq : Run.assign (ρ.id ref) (ρ.referred inside ref name) (ρ.line line) (value.recode ρ)
        (m.recode ρ new) =
          Run.assign (ρ.id ref) name (ρ.line line) (value.recode ρ) (m.recode ρ new) := by
      simp only [Run.assign, hbinding', hcurrent']
    rwa [heq]

/-- A variable of a scope is put into the next slot, whatever its name is. -/
theorem recodes_declare {name name' : String} (h : inside = true ∨ name' = name) (value : Value) :
    Recodes ρ old new inside id (Run.declare name value) (Run.declare name' (value.recode ρ)) := by
  intro m hm hframe
  have hcurrent : (m.recode ρ new).current = m.current := rfl
  unfold Ensures Run.declare
  rw [hcurrent]
  cases hframes : m.current with
  | some frame => exact ⟨⟨hm, rfl⟩, by simp [Machine.recode]⟩
  | none =>
    rcases h with hinside | rfl
    · have hsome := hframe hinside
      rw [hframes] at hsome
      cases hsome
    · exact ⟨⟨hm, rfl⟩, by simp [Machine.recode]⟩

/-! ## Operators -/

theorem recodes_apply (op : UnaryOp) (line : Nat) (v : Value) :
    Recodes ρ old new inside (Value.recode ρ) (op.apply line v)
      (op.apply (ρ.line line) (v.recode ρ)) := by
  cases op with
  | not =>
    simp only [UnaryOp.apply, Value.recode_isTruthy]
    exact recodes_pure rfl
  | negate =>
    cases v with
    | number n => exact recodes_pure rfl
    | _ => exact recodes_fail _ _

@[simp] theorem LogicalOp.stopsAt_recode (op : LogicalOp) (v : Value) :
    op.stopsAt (v.recode ρ) = op.stopsAt v := by
  cases op <;> simp [LogicalOp.stopsAt]

theorem recodes_onNumbers (line : Nat) {operation : Float → Float → Value}
    (plain : ∀ a b, (operation a b).recode ρ = operation a b) (v w : Value) :
    Recodes ρ old new inside (Value.recode ρ) (onNumbers line operation v w)
      (onNumbers (ρ.line line) operation (v.recode ρ) (w.recode ρ)) := by
  cases v with
  | number a =>
    cases w with
    | number b =>
      exact recodes_pure (plain a b)
    | _ => exact recodes_fail _ _
  | _ => exact recodes_fail _ _

theorem recodes_sum (line : Nat) (v w : Value) :
    Recodes ρ old new inside (Value.recode ρ) (sum line v w)
      (sum (ρ.line line) (v.recode ρ) (w.recode ρ)) := by
  have joined : ∀ (join : String → String) (other : Value),
      Recodes ρ old new inside (Value.recode ρ) (do return .text (join (← Run.textOf other)))
        (do return .text (join (← Run.textOf (other.recode ρ)))) :=
    fun join other => (recodes_textOf other).bind fun shown => recodes_pure rfl
  cases v with
  | number a =>
    cases w with
    | number b => exact recodes_pure rfl
    | text b => exact joined (· ++ b) _
    | _ => exact recodes_fail _ _
  | text a => cases w <;> exact joined (a ++ ·) _
  | _ =>
    cases w with
    | text b => exact joined (· ++ b) _
    | _ => exact recodes_fail _ _

theorem recodes_quotient (line : Nat) (v w : Value) :
    Recodes ρ old new inside (Value.recode ρ) (quotient line v w)
      (quotient (ρ.line line) (v.recode ρ) (w.recode ρ)) := by
  cases v with
  | number a =>
    cases w with
    | number b => exact (recodes_fail _ _).ite (recodes_pure rfl)
    | _ => exact recodes_fail _ _
  | _ => exact recodes_fail _ _

theorem recodes_applyBoth (op : BinaryOp) (line : Nat) (v w : Value) :
    Recodes ρ old new inside (Value.recode ρ) (op.apply line v w)
      (op.apply (ρ.line line) (v.recode ρ) (w.recode ρ)) := by
  cases op with
  | comma => exact recodes_pure rfl
  | equal =>
    simp only [BinaryOp.apply, Value.recode_equals]
    exact recodes_pure rfl
  | notEqual =>
    simp only [BinaryOp.apply, Value.recode_equals]
    exact recodes_pure rfl
  | add => exact recodes_sum line v w
  | divide => exact recodes_quotient line v w
  | _ => exact recodes_onNumbers line (fun _ _ => rfl) v w

/-! ## Objects -/

theorem recodes_toValue (f : Closure) :
    Recodes ρ old new inside (Value.recode ρ) f.toValue (f.recode ρ).toValue :=
  recodes_newIdentity.bind fun _ => recodes_pure rfl

theorem recodes_bind (method : Closure) (receiver : Value) :
    Recodes ρ old new inside (Closure.recode ρ) (method.bind receiver)
      ((method.recode ρ).bind (receiver.recode ρ)) :=
  (recodes_newFrame method.frame).bind fun frame =>
    (recodes_define frame receiver).bind fun _ => recodes_pure rfl

theorem recodes_bindFound (found : Option Closure) (receiver : Value) (name : Name) :
    Recodes ρ old new inside (Value.recode ρ) (bindFound found receiver name)
      (bindFound (found.map (Closure.recode ρ)) (receiver.recode ρ)
        (name.relabel ρ.toRelabelling)) := by
  cases found with
  | some method => exact (recodes_bind method receiver).bind fun bound => recodes_toValue bound
  | none => exact recodes_fail _ _

theorem recodes_arrayProperty (array : ArrayId) (name : Name) :
    Recodes ρ old new inside (Value.recode ρ) (arrayProperty array name)
      (arrayProperty array (name.relabel ρ.toRelabelling)) := by
  refine Recodes.ite ?_ (Recodes.ite ?_ (Recodes.ite ?_ ?_))
  · exact (recodes_arrayLength array).bind fun length => recodes_pure rfl
  · exact recodes_pure rfl
  · exact recodes_pure rfl
  · exact recodes_fail _ _

theorem recodes_property (object : Value) (name : Name) :
    Recodes ρ old new inside (Value.recode ρ) (property object name)
      (property (object.recode ρ) (name.relabel ρ.toRelabelling)) := by
  cases object with
  | instanceOf id type =>
    refine (recodes_field? id name.text).bind fun field => ?_
    cases field with
    | some value => exact recodes_pure rfl
    | none =>
      have hfound := type.findMethod?_recode ρ name.text
      show Recodes ρ old new inside _ _ (bindFound ((type.recode ρ).findMethod? name.text) _ _)
      rw [hfound]
      exact recodes_bindFound _ _ _
  | classValue c =>
    have hid := Class.recode_id ρ c
    show Recodes ρ old new inside _ _ (Run.field? (c.recode ρ).id name.text >>= _)
    rw [hid]
    refine (recodes_field? c.id name.text).bind fun field => ?_
    cases field with
    | some value => exact recodes_pure rfl
    | none =>
      have hfound := c.findClassMethod?_recode ρ name.text
      show Recodes ρ old new inside _ _ (bindFound ((c.recode ρ).findClassMethod? name.text) _ _)
      rw [hfound]
      exact recodes_bindFound _ _ _
  | array id => exact recodes_arrayProperty id name
  | _ => exact recodes_fail _ _

theorem recodes_fieldOwner (object : Value) (name : Name) :
    Recodes ρ old new inside id (fieldOwner object name)
      (fieldOwner (object.recode ρ) (name.relabel ρ.toRelabelling)) := by
  cases object with
  | instanceOf id type => exact recodes_pure rfl
  | classValue c => exact recodes_pure (c.recode_id ρ).symm
  | array id => exact recodes_fail _ _
  | _ => exact recodes_fail _ _

theorem recodes_superTarget (fits : ρ.Fits old new) (ref : RefId) (line : Nat) (name : Name) :
    Recodes ρ old new inside (Prod.map (Value.recode ρ) (Option.map (Closure.recode ρ)))
      (superTarget ref line name)
      (superTarget (ρ.id ref) (ρ.line line) (name.relabel ρ.toRelabelling)) := by
  refine (recodes_boundHere? fits ref).bind fun bound => ?_
  cases bound with
  | none => exact recodes_fail _ _
  | some bound =>
    obtain ⟨b, frame⟩ := bound
    refine (recodes_slotValue frame b.depth b.slot line).bind fun superclass => ?_
    cases superclass with
    | classValue k =>
      obtain ⟨depth, slot⟩ := b
      cases depth with
      | zero => exact recodes_fail _ _
      | succ depth =>
        refine (recodes_slotValue frame depth 0 line).bind fun receiver => ?_
        cases receiver with
        | classValue c =>
          exact recodes_pure (Prod.ext rfl (k.findClassMethod?_recode ρ name.text).symm)
        | _ => exact recodes_pure (Prod.ext rfl (k.findMethod?_recode ρ name.text).symm)
    | _ => exact recodes_fail _ _

theorem recodes_superMethod (fits : ρ.Fits old new) (ref : RefId) (line : Nat) (name : Name) :
    Recodes ρ old new inside (Value.recode ρ) (superMethod ref line name)
      (superMethod (ρ.id ref) (ρ.line line) (name.relabel ρ.toRelabelling)) :=
  (recodes_superTarget fits ref line name).bind fun _ => recodes_bindFound _ _ _

/-! ## Classes and traits -/

theorem recodes_superclassOf (ref : Reference) (v : Value) :
    Recodes ρ old new inside (Class.recode ρ) (superclassOf ref v)
      (superclassOf (ref.recode ρ inside) (v.recode ρ)) := by
  cases v with
  | classValue c => exact recodes_pure rfl
  | _ => exact recodes_fail _ _

theorem recodes_notATrait {g : α → β} (ref : Reference) :
    Recodes ρ old new inside g (Run.fail ref.name.line (.notATrait ref.name.text))
      (Run.fail (ρ.line ref.name.line)
        (.notATrait (ρ.referred inside ref.id ref.name.text))) := by
  cases inside with
  | false => exact recodes_fail _ _
  | true => exact fun m hm _ => ⟨⟨hm, rfl⟩, _, .notATrait _ _ _, rfl⟩

theorem recodes_traitOf (ref : Reference) (v : Value) :
    Recodes ρ old new inside (Trait.recode ρ) (traitOf ref v)
      (traitOf (ref.recode ρ inside) (v.recode ρ)) := by
  cases v with
  | traitValue id t => exact recodes_pure rfl
  | _ => exact recodes_notATrait ref

theorem recodes_addMethods (line : Nat) (provided : Methods) (names : List String)
    (composed : Methods) :
    Recodes ρ old new inside (Methods.recode ρ) (addMethods line provided names composed)
      (addMethods (ρ.line line) (Methods.recode ρ provided) names
        (Methods.recode ρ composed)) := by
  induction names generalizing composed with
  | nil => exact recodes_pure rfl
  | cons name rest ih =>
    unfold addMethods Methods.recode
    rw [Dictionary.contains_map, Dictionary.get?_map]
    refine Recodes.ite (recodes_fail _ _) ?_
    cases provided.get? name with
    | some method =>
      simp only [Option.map_some, Dictionary.insert_map]
      exact ih _
    | none => exact ih composed

theorem recodes_addTraits (fits : ρ.Fits old new) (traits : List Reference)
    (composed : Methods) :
    Recodes ρ old new inside (Methods.recode ρ) (addTraits traits composed)
      (addTraits (traits.map (Reference.recode ρ inside)) (Methods.recode ρ composed)) := by
  induction traits generalizing composed with
  | nil => exact recodes_pure rfl
  | cons ref rest ih =>
    refine (recodes_lookUp fits ref.id ref.name.text ref.name.line).bind fun v => ?_
    refine (recodes_traitOf ref v).bind fun used => ?_
    have hkeys : (Methods.recode ρ used.methods).sortedKeys = used.methods.sortedKeys :=
      Dictionary.sortedKeys_map _ _
    show Recodes ρ old new inside _ _ (addMethods _ (Methods.recode ρ used.methods)
      (Methods.recode ρ used.methods).sortedKeys _ >>= _)
    rw [hkeys]
    exact (recodes_addMethods _ _ _ _).bind fun more => ih more

theorem recodes_checkProvided (composed : Methods) (methods : List NamedFunction) :
    Recodes ρ old new inside id (checkProvided composed methods)
      (checkProvided (Methods.recode ρ composed) (methods.map (NamedFunction.recode ρ))) := by
  induction methods with
  | nil => exact recodes_pure rfl
  | cons method rest ih =>
    have hcontains : (Methods.recode ρ composed).contains method.name.text =
        composed.contains method.name.text := Dictionary.contains_map _ _ _
    simp only [List.map_cons, checkProvided, NamedFunction.recode_name, Name.relabel, hcontains]
    exact Recodes.ite (recodes_fail _ _) ih

theorem recodes_composeTraits (fits : ρ.Fits old new) (traits : List Reference)
    (methods : List NamedFunction) :
    Recodes ρ old new inside (Methods.recode ρ) (composeTraits traits methods)
      (composeTraits (traits.map (Reference.recode ρ inside))
        (methods.map (NamedFunction.recode ρ))) :=
  (recodes_addTraits fits traits Dictionary.empty).bind fun composed =>
    (recodes_checkProvided composed methods).bind fun _ => recodes_pure rfl

theorem NamedFunction.recode_closure (f : NamedFunction) (frame : Option FrameId)
    (isInitializer : Bool) :
    (f.recode ρ).closure frame isInitializer = (f.closure frame isInitializer).recode ρ := by
  simp [NamedFunction.closure, Closure.recode, Name.relabel]

theorem foldl_insert_recode (isInitializer : String → Bool) (composed : Methods)
    (methods : List NamedFunction) (frame : Option FrameId) :
    (methods.map (NamedFunction.recode ρ)).foldl
        (fun table method => table.insert method.name.text
          (method.closure frame (isInitializer method.name.text)))
        (Methods.recode ρ composed) =
      Methods.recode ρ (methods.foldl
        (fun table method => table.insert method.name.text
          (method.closure frame (isInitializer method.name.text))) composed) := by
  induction methods generalizing composed with
  | nil => rfl
  | cons method rest ih =>
    simp only [List.map_cons, List.foldl_cons, ← ih]
    congr 1
    simp [Methods.recode, NamedFunction.recode_closure, Name.relabel]

theorem addBody_recode (composed : Methods) (methods : List NamedFunction)
    (frame : Option FrameId) :
    addBody (Methods.recode ρ composed) (methods.map (NamedFunction.recode ρ)) frame =
      Methods.recode ρ (addBody composed methods frame) :=
  foldl_insert_recode (fun name => decide (name = initializerName)) composed methods frame

theorem classMethodTable_recode (methods : List NamedFunction) (frame : Option FrameId) :
    classMethodTable (methods.map (NamedFunction.recode ρ)) frame =
      Methods.recode ρ (classMethodTable methods frame) :=
  foldl_insert_recode (fun _ => false) Dictionary.empty methods frame

theorem recodes_methodFrame (superclass : Option Class) :
    Recodes ρ old new inside id (methodFrame superclass)
      (methodFrame (superclass.map (Class.recode ρ))) := by
  cases superclass with
  | none => exact recodes_current
  | some c =>
    refine recodes_current.bind fun current => (recodes_newFrame current).bind fun frame => ?_
    exact (recodes_define frame (.classValue c)).bind fun _ => recodes_pure rfl

theorem recodes_newClass (name : Name) (extended : Option Class) (composed : Methods)
    (frame : Option FrameId) (methods classMethods : List NamedFunction) :
    Recodes ρ old new inside (Class.recode ρ)
      (newClass name extended composed frame methods classMethods)
      (newClass (name.relabel ρ.toRelabelling) (extended.map (Class.recode ρ))
        (Methods.recode ρ composed) frame (methods.map (NamedFunction.recode ρ))
        (classMethods.map (NamedFunction.recode ρ))) := by
  unfold newClass
  rw [addBody_recode, classMethodTable_recode]
  refine recodes_newObject.bind fun metaId => recodes_newObject.bind fun classId => ?_
  have hmeta : (extended.map (Class.recode ρ)).bind Class.metaclass =
      (extended.bind Class.metaclass).map (Class.recode ρ) := by
    cases extended <;> simp
  refine recodes_pure ?_
  rw [hmeta]
  simp only [Class.recode_mk, Option.map_some, Option.map_none, Name.relabel, id]

theorem recodes_declareClass (fits : ρ.Fits old new) (name : Name)
    (superclass : Option Reference) (traits : List Reference)
    (methods classMethods : List NamedFunction) :
    Recodes ρ old new inside id (declareClass name superclass traits methods classMethods)
      (declareClass (name.relabel ρ.toRelabelling) (superclass.map (Reference.recode ρ inside))
        (traits.map (Reference.recode ρ inside)) (methods.map (NamedFunction.recode ρ))
        (classMethods.map (NamedFunction.recode ρ))) := by
  have hrest : ∀ extended : Option Class, Recodes ρ old new inside id
      (do
        let composed ← composeTraits traits methods
        let frame ← methodFrame extended
        let declared ← newClass name extended composed frame methods classMethods
        Run.declare name.text (.classValue declared))
      (do
        let composed ← composeTraits (traits.map (Reference.recode ρ inside))
          (methods.map (NamedFunction.recode ρ))
        let frame ← methodFrame (extended.map (Class.recode ρ))
        let declared ← newClass (name.relabel ρ.toRelabelling) (extended.map (Class.recode ρ))
          composed frame (methods.map (NamedFunction.recode ρ))
          (classMethods.map (NamedFunction.recode ρ))
        Run.declare (name.relabel ρ.toRelabelling).text (.classValue declared)) := by
    intro extended
    refine (recodes_composeTraits fits traits methods).bind fun composed => ?_
    refine (recodes_methodFrame extended).bind fun frame => ?_
    refine (recodes_newClass name extended composed frame methods classMethods).bind fun k => ?_
    exact recodes_declare (.inr rfl) (.classValue k)
  unfold declareClass
  cases superclass with
  | none => exact hrest none
  | some ref =>
    refine (recodes_lookUp fits ref.id ref.name.text ref.name.line).bind fun v => ?_
    exact Recodes.bind ((recodes_superclassOf ref v).map fun _ => rfl) hrest

theorem recodes_declareTrait (fits : ρ.Fits old new) (name : Name) (traits : List Reference)
    (methods : List NamedFunction) :
    Recodes ρ old new inside id (declareTrait name traits methods)
      (declareTrait (name.relabel ρ.toRelabelling) (traits.map (Reference.recode ρ inside))
        (methods.map (NamedFunction.recode ρ))) := by
  refine (recodes_composeTraits fits traits methods).bind fun composed => ?_
  refine recodes_current.bind fun frame => recodes_newIdentity.bind fun identity => ?_
  rw [addBody_recode]
  exact recodes_declare (.inr rfl)
    (.traitValue identity ⟨name.text, addBody composed methods frame⟩)

/-! ## Calls -/

open Evaluation

theorem recodes_inOrder {execute execute' : Stmt → Run Completion}
    (h : ∀ st, Recodes ρ old new inside (Completion.recode ρ) (execute st)
      (execute' (st.recode ρ inside)))
    (body : List Stmt) :
    Recodes ρ old new inside (Completion.recode ρ) (inOrder execute body)
      (inOrder execute' (body.map (Stmt.recode ρ inside))) := by
  induction body with
  | nil => exact recodes_pure rfl
  | cons st rest ih =>
    refine (h st).bind fun completion => ?_
    cases completion with
    | normal => exact ih
    | broke => exact recodes_pure rfl
    | returned v => exact recodes_pure rfl

theorem recodes_values {evaluate evaluate' : Expr → Run Value}
    (h : ∀ e, Recodes ρ old new inside (Value.recode ρ) (evaluate e)
      (evaluate' (e.recode ρ inside)))
    (es : List Expr) :
    Recodes ρ old new inside (List.map (Value.recode ρ)) (values evaluate es)
      (values evaluate' (es.map (Expr.recode ρ inside))) := by
  induction es with
  | nil => exact recodes_pure rfl
  | cons e rest ih => exact (h e).bind fun v => ih.bind fun vs => recodes_pure rfl

theorem recodes_checkArity (expected : Nat) (arguments : List Value) (line : Nat) :
    Recodes ρ old new inside id (checkArity expected arguments line)
      (checkArity expected (arguments.map (Value.recode ρ)) (ρ.line line)) := by
  unfold checkArity
  rw [List.length_map]
  exact Recodes.ite (recodes_pure rfl) (recodes_fail _ _)

theorem headD_recode (arguments : List Value) :
    (arguments.map (Value.recode ρ)).headD .nil = (arguments.headD .nil).recode ρ := by
  cases arguments <;> rfl

theorem getD_recode (arguments : List Value) (i : Nat) :
    (arguments.map (Value.recode ρ)).getD i .nil = (arguments.getD i .nil).recode ρ := by
  simp only [List.getD_eq_getElem?_getD, List.getElem?_map]
  cases arguments[i]? <;> rfl

theorem recodes_callNative (native : Native) (arguments : List Value) (line : Nat) :
    Recodes ρ old new inside (Value.recode ρ) (callNative native arguments line)
      (callNative native (arguments.map (Value.recode ρ)) (ρ.line line)) := by
  unfold callNative
  cases native with
  | clock => exact recodes_readClock.bind fun _ => recodes_pure rfl
  | array =>
    refine recodes_room.bind fun room => ?_
    rw [headD_recode, arraySize_recode]
    exact (recodes_ofExcept _ _ _).bind fun size =>
      (recodes_newArray size).bind fun _ => recodes_pure rfl

theorem recodes_callArrayMethod (array : ArrayId) (method : ArrayMethod)
    (arguments : List Value) (line : Nat) :
    Recodes ρ old new inside (Value.recode ρ) (callArrayMethod array method arguments line)
      (callArrayMethod array method (arguments.map (Value.recode ρ)) (ρ.line line)) := by
  refine (recodes_arrayLength array).bind fun length => ?_
  rw [headD_recode, arrayIndex_recode]
  refine (recodes_ofExcept _ _ _).bind fun index => ?_
  cases method with
  | get => exact recodes_element array index
  | set =>
    dsimp only
    rw [getD_recode]
    exact (recodes_setElement array index _).bind fun _ => recodes_pure rfl

theorem recodes_callFrame (f : Closure) (arguments : List Value) :
    Recodes ρ old new inside id (callFrame f arguments)
      (callFrame (f.recode ρ) (arguments.map (Value.recode ρ))) :=
  (recodes_newFrame f.frame).bind fun frame =>
    (recodes_defineAll frame arguments).bind fun _ => recodes_pure rfl

theorem recodes_callResult (f : Closure) (line : Nat) (completion : Completion) :
    Recodes ρ old new inside (Value.recode ρ) (callResult f line completion)
      (callResult (f.recode ρ) (ρ.line line) (completion.recode ρ)) := by
  have hframe : (f.recode ρ).frame = f.frame := rfl
  unfold callResult
  rw [hframe]
  refine Recodes.ite ?_ ?_
  · cases f.frame with
    | some frame => exact recodes_slotValue frame 0 0 line
    | none => exact recodes_fail _ _
  · cases completion <;> exact recodes_pure rfl

/-- What calls functions does so in another code, too, wherever they are called. -/
def RecodesCalls (ρ : Recoding) (old new : Bindings)
    (call call' : Closure → List Value → Nat → Run Value) : Prop :=
  ∀ inside f arguments line, Recodes ρ old new inside (Value.recode ρ) (call f arguments line)
    (call' (f.recode ρ) (arguments.map (Value.recode ρ)) (ρ.line line))

variable {call call' : Closure → List Value → Nat → Run Value}

theorem recodes_instantiate (h : RecodesCalls ρ old new call call') (type : Class)
    (arguments : List Value) (line : Nat) :
    Recodes ρ old new inside (Value.recode ρ) (instantiate call type arguments line)
      (instantiate call' (type.recode ρ) (arguments.map (Value.recode ρ)) (ρ.line line)) := by
  refine recodes_newObject.bind fun created => ?_
  dsimp only
  rw [Class.findMethod?_recode]
  cases type.findMethod? initializerName with
  | some initializer =>
    refine (recodes_bind initializer (.instanceOf created type)).bind fun bound => ?_
    exact (h inside bound arguments line).bind fun _ => recodes_pure rfl
  | none => exact recodes_pure rfl

theorem recodes_callValue (h : RecodesCalls ρ old new call call') (callee : Value)
    (arguments : List Value) (line : Nat) :
    Recodes ρ old new inside (Value.recode ρ) (callValue call callee arguments line)
      (callValue call' (callee.recode ρ) (arguments.map (Value.recode ρ)) (ρ.line line)) := by
  cases callee with
  | native native =>
    exact (recodes_checkArity _ _ _).bind fun _ => recodes_callNative native arguments line
  | function id f =>
    show Recodes ρ old new inside _ _ (checkArity (f.function.recode ρ).arity _ _ >>= _)
    rw [Function.recode_arity]
    exact (recodes_checkArity _ _ _).bind fun _ => h inside f arguments line
  | classValue type =>
    show Recodes ρ old new inside _ _ (checkArity (type.recode ρ).arity _ _ >>= _)
    rw [Class.recode_arity]
    exact (recodes_checkArity _ _ _).bind fun _ => recodes_instantiate h type arguments line
  | arrayMethod array method =>
    exact (recodes_checkArity _ _ _).bind fun _ =>
      recodes_callArrayMethod array method arguments line
  | _ => exact recodes_fail _ _

/-! ## Evaluation -/

/-- With a budget, everything that programs are made of does the same in another code. -/
structure RecodesAt (ρ : Recoding) (old new : Bindings) (budget : Nat) : Prop where
  evaluate {inside : Bool} (e : Expr) :
    Recodes ρ old new inside (Value.recode ρ) (evaluate budget e)
      (evaluate budget (e.recode ρ inside))
  execute {inside : Bool} (st : Stmt) :
    Recodes ρ old new inside (Completion.recode ρ) (execute budget st)
      (execute budget (st.recode ρ inside))
  repeatWhile {inside : Bool} (condition : Expr) (body : Stmt) :
    Recodes ρ old new inside (Completion.recode ρ) (repeatWhile budget condition body)
      (repeatWhile budget (condition.recode ρ inside) (body.recode ρ inside))
  call : RecodesCalls ρ old new (callClosure budget) (callClosure budget)

theorem RecodesAt.evaluate_succ {budget : Nat} (h : RecodesAt ρ old new budget)
    (fits : ρ.Fits old new) (e : Expr) :
    Recodes ρ old new inside (Value.recode ρ) (LoxLang.evaluate (budget + 1) e)
      (LoxLang.evaluate (budget + 1) (e.recode ρ inside)) := by
  unfold LoxLang.evaluate
  cases e with
  | literal value =>
    simp only [Expr.recode]
    exact recodes_pure (Value.recode_value ρ value)
  | grouping inner =>
    simp only [Expr.recode]
    exact h.evaluate inner
  | unary op line operand =>
    simp only [Expr.recode]
    exact (h.evaluate operand).bind fun v => recodes_apply op line v
  | binary left op line right =>
    simp only [Expr.recode]
    refine (h.evaluate left).bind fun v => (h.evaluate right).bind fun w => ?_
    exact recodes_applyBoth op line v w
  | logical left op line right =>
    simp only [Expr.recode]
    refine (h.evaluate left).bind fun v => ?_
    rw [LogicalOp.stopsAt_recode]
    exact Recodes.ite (recodes_pure rfl) (h.evaluate right)
  | conditional condition thenBranch elseBranch =>
    simp only [Expr.recode]
    refine (h.evaluate condition).bind fun v => ?_
    rw [Value.recode_isTruthy]
    exact (h.evaluate thenBranch).ite (h.evaluate elseBranch)
  | «variable» ref =>
    simp only [Expr.recode]
    exact recodes_lookUp fits ref.id ref.name.text ref.name.line
  | assign ref value =>
    simp only [Expr.recode]
    refine (h.evaluate value).bind fun v => ?_
    exact (recodes_assign fits ref.id ref.name.text ref.name.line v).bind fun _ =>
      recodes_pure rfl
  | call callee arguments line =>
    simp only [Expr.recode, recodeArguments_eq_map]
    refine (h.evaluate callee).bind fun f => (recodes_values h.evaluate arguments).bind fun vs => ?_
    exact recodes_callValue h.call f vs line
  | get object name =>
    simp only [Expr.recode]
    exact (h.evaluate object).bind fun v => recodes_property v name
  | set object name value =>
    simp only [Expr.recode]
    refine (h.evaluate object).bind fun o => (recodes_fieldOwner o name).bind fun owner => ?_
    refine (h.evaluate value).bind fun v => ?_
    exact (recodes_setField owner name.text v).bind fun _ => recodes_pure rfl
  | this id line =>
    simp only [Expr.recode]
    exact recodes_lookUp_kept fits id thisName line
  | super id line method =>
    simp only [Expr.recode]
    exact recodes_superMethod fits id line method
  | lambda line function =>
    simp only [Expr.recode]
    exact recodes_current.bind fun frame => recodes_toValue ⟨none, function, frame, false⟩

theorem RecodesAt.execute_succ {budget : Nat} (h : RecodesAt ρ old new budget)
    (fits : ρ.Fits old new) (st : Stmt) :
    Recodes ρ old new inside (Completion.recode ρ) (LoxLang.execute (budget + 1) st)
      (LoxLang.execute (budget + 1) (st.recode ρ inside)) := by
  unfold LoxLang.execute
  cases st with
  | expression value =>
    simp only [Stmt.recode]
    exact (h.evaluate value).bind fun _ => recodes_pure rfl
  | print value =>
    simp only [Stmt.recode]
    exact (h.evaluate value).bind fun v => (recodes_print v).bind fun _ => recodes_pure rfl
  | varDecl name initial =>
    -- A global is declared by its name, which is the same in both trees.
    have hname : inside = true ∨ (name.recode ρ inside).text = name.text := by
      cases inside with
      | false => exact .inr rfl
      | true => exact .inl rfl
    have hrest : ∀ v : Value, Recodes ρ old new inside (Completion.recode ρ)
        (Run.declare name.text v >>= fun _ => pure Completion.normal)
        (Run.declare (name.recode ρ inside).text (v.recode ρ) >>= fun _ =>
          pure Completion.normal) :=
      fun v => (recodes_declare hname v).bind fun _ => recodes_pure rfl
    cases initial with
    | none =>
      simp only [Stmt.recode]
      exact hrest .nil
    | some e =>
      simp only [Stmt.recode]
      exact (h.evaluate e).bind hrest
  | block body =>
    simp only [Stmt.recode, recodeBody_eq_map]
    refine recodes_current.bind fun outer => (recodes_newFrame outer).bind fun frame => ?_
    exact (recodes_inOrder h.execute body).within frame
  | ifThen condition thenBranch elseBranch =>
    cases elseBranch with
    | none =>
      simp only [Stmt.recode]
      refine (h.evaluate condition).bind fun v => ?_
      rw [Value.recode_isTruthy]
      exact (h.execute thenBranch).ite (recodes_pure rfl)
    | some other =>
      simp only [Stmt.recode]
      refine (h.evaluate condition).bind fun v => ?_
      rw [Value.recode_isTruthy]
      exact (h.execute thenBranch).ite (h.execute other)
  | whileDo condition body =>
    simp only [Stmt.recode]
    exact h.repeatWhile condition body
  | breakLoop line =>
    simp only [Stmt.recode]
    exact recodes_pure rfl
  | returnWith line value =>
    cases value with
    | none =>
      simp only [Stmt.recode]
      exact recodes_pure rfl
    | some e =>
      simp only [Stmt.recode]
      exact (h.evaluate e).bind fun v => recodes_pure rfl
  | funDecl declared =>
    simp only [Stmt.recode, NamedFunction.recode_name, NamedFunction.recode_closure]
    refine recodes_current.bind fun frame => ?_
    refine (recodes_toValue (declared.closure frame false)).bind fun f => ?_
    exact (recodes_declare (.inr rfl) f).bind fun _ => recodes_pure rfl
  | classDecl name superclass traits methods classMethods =>
    simp only [Stmt.recode, recodeMethods_eq_map]
    exact (recodes_declareClass fits name superclass traits methods classMethods).bind fun _ =>
      recodes_pure rfl
  | traitDecl name traits methods =>
    simp only [Stmt.recode, recodeMethods_eq_map]
    exact (recodes_declareTrait fits name traits methods).bind fun _ => recodes_pure rfl

theorem RecodesAt.repeatWhile_succ {budget : Nat} (h : RecodesAt ρ old new budget)
    (condition : Expr) (body : Stmt) :
    Recodes ρ old new inside (Completion.recode ρ) (LoxLang.repeatWhile (budget + 1) condition body)
      (LoxLang.repeatWhile (budget + 1) (condition.recode ρ inside) (body.recode ρ inside)) := by
  unfold LoxLang.repeatWhile
  refine (h.evaluate condition).bind fun v => ?_
  rw [Value.recode_isTruthy]
  refine Recodes.ite ((h.execute body).bind fun completion => ?_) (recodes_pure rfl)
  cases completion with
  | normal => exact h.repeatWhile condition body
  | broke => exact recodes_pure rfl
  | returned v => exact recodes_pure rfl

theorem RecodesAt.call_succ {budget : Nat} (h : RecodesAt ρ old new budget) :
    RecodesCalls ρ old new (callClosure (budget + 1)) (callClosure (budget + 1)) := by
  intro inside f arguments line
  unfold callClosure
  refine (recodes_callFrame f arguments).bind fun frame => ?_
  have hbody : (f.recode ρ).function.body = f.function.body.map (Stmt.recode ρ true) :=
    Function.recode_body ρ f.function
  rw [hbody]
  refine ((recodes_inOrder h.execute f.function.body).within frame).bind fun completion => ?_
  exact recodes_callResult f line completion

theorem recodesAt (fits : ρ.Fits old new) (budget : Nat) : RecodesAt ρ old new budget := by
  induction budget with
  | zero =>
    constructor
    · intro _ e
      unfold evaluate
      exact recodes_throw .exhausted
    · intro _ st
      unfold execute
      exact recodes_throw .exhausted
    · intro _ condition body
      unfold repeatWhile
      exact recodes_throw .exhausted
    · intro _ f arguments line
      unfold callClosure
      exact recodes_throw .exhausted
  | succ budget ih =>
    exact ⟨ih.evaluate_succ fits, ih.execute_succ fits, ih.repeatWhile_succ, ih.call_succ⟩

/-- A program in another code does the same, on a machine in this code and with bindings for it. -/
theorem recodes_interpret (fits : ρ.Fits old new) (budget : Nat) (program : List Stmt) :
    Recodes ρ old new inside id (interpret budget program)
      (interpret budget (recodeBody ρ inside program)) := by
  rw [recodeBody_eq_map]
  induction program with
  | nil => exact recodes_pure rfl
  | cons st rest ih => exact ((recodesAt fits budget).execute st).bind fun _ => ih

/-! ## Other labels alone -/

section

variable {ρ : Relabelling}

theorem Relabelling.Binds.fits (h : ρ.Binds old new) : ρ.plain.Fits old new :=
  ⟨h, fun _ _ _ => rfl⟩

theorem Recoding.Stops.eq_relabel {stop stop' : Stop} (h : ρ.plain.Stops stop stop') :
    stop' = stop.relabel ρ := by
  cases h <;> rfl

/-- A program with other labels does the same, on a machine with these labels and with bindings
for them. -/
theorem relabels_interpret (binds : ρ.Binds old new) (budget : Nat) (program : List Stmt)
    (m : Machine) (hm : m.bindings = old) :
    Ensures (interpret budget program) m
      (fun a m' => m'.bindings = old ∧
        interpret budget (relabelBody ρ program) (m.recode ρ.plain new) =
          .ok a (m'.recode ρ.plain new))
      fun stop m' => m'.bindings = old ∧
        interpret budget (relabelBody ρ program) (m.recode ρ.plain new) =
          .error (stop.relabel ρ) (m'.recode ρ.plain new) := by
  have hrun : Recodes ρ.plain old new false id (interpret budget program)
      (interpret budget (recodeBody ρ.plain false program)) :=
    recodes_interpret binds.fits budget program
  rw [recodeBody_plain] at hrun
  refine (hrun m hm Bool.noConfusion).mono ?_ ?_
  · rintro a m' ⟨⟨hbindings, -⟩, hsame⟩
    exact ⟨hbindings, hsame⟩
  · rintro stop m' ⟨⟨hbindings, -⟩, stop', hstop, hsame⟩
    exact ⟨hbindings, hstop.eq_relabel ▸ hsame⟩

end

end LoxLang
