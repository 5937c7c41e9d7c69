import LoxLang.Machine.State
import LoxLang.Proofs.Tree.Recoding

/-!
# Machines in another code

The values of a machine hold trees: the code of functions and methods. With all of them in another
code, and with another table of bindings, the machine has the same frames and objects, and
everything in it is told apart, compared and shown as before.
-/

namespace LoxLang

namespace Dictionary

variable {α β : Type} (f : α → β)

/-- A dictionary with other values. -/
def map (d : Dictionary α) : Dictionary β :=
  ⟨d.entries.map fun entry => (entry.1, f entry.2)⟩

@[simp] theorem map_empty : (empty : Dictionary α).map f = empty := rfl

@[simp] theorem get?_map (d : Dictionary α) (name : String) :
    (d.map f).get? name = (d.get? name).map f := by
  obtain ⟨entries⟩ := d
  simp only [get?, map]
  induction entries with
  | nil => rfl
  | cons entry rest ih =>
    simp only [List.map_cons, find?]
    split
    · rfl
    · exact ih

@[simp] theorem contains_map (d : Dictionary α) (name : String) :
    (d.map f).contains name = d.contains name := by
  simp [contains]

@[simp] theorem insert_map (d : Dictionary α) (name : String) (value : α) :
    (d.map f).insert name (f value) = (d.insert name value).map f := by
  obtain ⟨entries⟩ := d
  simp only [insert, map, mk.injEq]
  induction entries with
  | nil => rfl
  | cons entry rest ih =>
    simp only [List.map_cons, put]
    split
    · rfl
    · rw [ih, List.map_cons]

@[simp] theorem sortedKeys_map (d : Dictionary α) : (d.map f).sortedKeys = d.sortedKeys := by
  simp [sortedKeys, keys, map, Function.comp_def]

end Dictionary

variable (ρ : Recoding)

/-! ## Values -/

def Closure.recode (c : Closure) : Closure :=
  { c with function := c.function.recode ρ }

def Methods.recode (methods : Methods) : Methods :=
  Dictionary.map (Closure.recode ρ) methods

mutual

/-- A class with its methods in another code. -/
def Class.recode : Class → Class
  | .mk id name superclass methods metaclass =>
    .mk id name (recodeClass superclass) (Methods.recode ρ methods) (recodeClass metaclass)

/-- A class, if there is one, with its methods in another code. -/
def recodeClass : Option Class → Option Class
  | none => none
  | some c => some c.recode

end

def Trait.recode (t : Trait) : Trait :=
  { t with methods := Methods.recode ρ t.methods }

/-- A value with its code in another code. -/
def Value.recode : Value → Value
  | .function id closure => .function id (closure.recode ρ)
  | .classValue c => .classValue (c.recode ρ)
  | .instanceOf id type => .instanceOf id (type.recode ρ)
  | .traitValue id t => .traitValue id (t.recode ρ)
  | value => value

theorem recodeClass_eq_map (c : Option Class) : recodeClass ρ c = c.map (Class.recode ρ) := by
  cases c <;> simp [recodeClass]

theorem Class.recode_mk (id : ObjectId) (name : String) (superclass : Option Class)
    (methods : Methods) (metaclass : Option Class) :
    (Class.mk id name superclass methods metaclass).recode ρ =
      .mk id name (superclass.map (Class.recode ρ)) (Methods.recode ρ methods)
        (metaclass.map (Class.recode ρ)) := by
  simp only [Class.recode, recodeClass_eq_map]

@[simp] theorem Class.recode_id (c : Class) : (c.recode ρ).id = c.id := by
  cases c
  simp [Class.recode, Class.id]

@[simp] theorem Class.recode_name (c : Class) : (c.recode ρ).name = c.name := by
  cases c
  simp [Class.recode, Class.name]

@[simp] theorem Class.recode_metaclass (c : Class) :
    (c.recode ρ).metaclass = c.metaclass.map (Class.recode ρ) := by
  cases c
  simp [Class.recode, Class.metaclass, recodeClass_eq_map]

@[simp] theorem Class.findMethod?_recode (name : String) :
    (c : Class) → (c.recode ρ).findMethod? name = (c.findMethod? name).map (Closure.recode ρ)
  | .mk _ _ none methods _ => by
    simp [Class.recode, recodeClass, Class.findMethod?, Methods.recode]
  | .mk _ _ (some superclass) methods _ => by
    have ih := Class.findMethod?_recode name superclass
    simp only [Class.recode, recodeClass, Class.findMethod?, Methods.recode,
      Dictionary.get?_map]
    cases methods.get? name with
    | some method => rfl
    | none => exact ih

@[simp] theorem Class.findClassMethod?_recode (name : String) (c : Class) :
    (c.recode ρ).findClassMethod? name = (c.findClassMethod? name).map (Closure.recode ρ) := by
  simp only [Class.findClassMethod?, Class.recode_metaclass]
  cases c.metaclass <;> simp

@[simp] theorem Class.recode_arity (c : Class) : (c.recode ρ).arity = c.arity := by
  simp only [Class.arity, Class.findMethod?_recode]
  cases c.findMethod? initializerName <;> simp [Closure.recode]

@[simp] theorem Value.recode_isTruthy (v : Value) : (v.recode ρ).isTruthy = v.isTruthy := by
  cases v <;> rfl

@[simp] theorem Value.recode_integral? (v : Value) : (v.recode ρ).integral? = v.integral? := by
  cases v <;> rfl

@[simp] theorem Value.recode_equals (v w : Value) :
    (v.recode ρ).equals (w.recode ρ) = v.equals w := by
  cases v <;> cases w <;> simp [Value.recode, Value.equals]

@[simp] theorem Value.recode_nil : Value.nil.recode ρ = .nil := rfl

@[simp] theorem Value.recode_value (l : Literal) : l.value.recode ρ = l.value := by
  cases l <;> rfl

@[simp] theorem arraySize_recode (v : Value) (room : Nat) :
    arraySize (v.recode ρ) room = arraySize v room := by
  simp [arraySize]

@[simp] theorem arrayIndex_recode (v : Value) (length : Nat) :
    arrayIndex (v.recode ρ) length = arrayIndex v length := by
  simp [arrayIndex]

/-! ## Machines -/

def Frame.recode (frame : Frame) : Frame :=
  { frame with values := frame.values.map (Value.recode ρ) }

def Frames.recode (fs : Frames) : Frames :=
  ⟨fs.all.map (Frame.recode ρ)⟩

def Arrays.recode (arrays : Arrays) : Arrays :=
  arrays.map fun elements => elements.map (Value.recode ρ)

/-- A machine with everything it holds in another code, and with the given bindings. -/
def Machine.recode (bindings : Bindings) (m : Machine) : Machine where
  globals := m.globals.map (Value.recode ρ)
  frames := m.frames.recode ρ
  objects := m.objects.map (Dictionary.map (Value.recode ρ))
  arrays := Arrays.recode ρ m.arrays
  identities := m.identities
  current := m.current
  bindings := bindings
  sink := m.sink
  ticks := m.ticks
  host := m.host

/-- A failure on another line. -/
def Stop.relabel (ρ : Relabelling) : Stop → Stop
  | .failed line cause => .failed (ρ.line line) cause
  | stop => stop

/-- How a run in another code stops. What is not a trait is reported with the name that its
occurrence has in that code. -/
inductive Recoding.Stops : Stop → Stop → Prop
  | same (stop : Stop) : Stops stop (stop.relabel ρ.toRelabelling)
  | notATrait (line : Nat) (id : RefId) (text : String) :
      Stops (.failed line (.notATrait text)) (.failed (ρ.line line) (.notATrait (ρ.word id text)))

namespace Frames

variable (fs : Frames) (id : FrameId)

theorem getD_recode :
    (fs.recode ρ).all.getD id default = (fs.all.getD id default).recode ρ := by
  simp only [Frames.recode, Array.getD_eq_getD_getElem?, Array.getElem?_map]
  cases fs.all[id]? with
  | some frame => rfl
  | none => simp [Frame.recode, default]

@[simp] theorem values_recode :
    (fs.recode ρ).values id = (fs.values id).map (Value.recode ρ) := by
  rw [values, getD_recode]
  rfl

@[simp] theorem outer?_recode : (fs.recode ρ).outer? id = fs.outer? id := by
  rw [outer?, getD_recode]
  rfl

@[simp] theorem outward?_recode (steps : Nat) :
    (fs.recode ρ).outward? id steps = fs.outward? id steps := by
  induction steps generalizing id with
  | zero => rfl
  | succ steps ih =>
    simp only [outward?, outer?_recode]
    cases fs.outer? id with
    | some outer => exact ih outer
    | none => rfl

theorem nextSlot_recode : (fs.recode ρ).nextSlot id = fs.nextSlot id := by
  simp [nextSlot]

@[simp] theorem holder_recode (depth slot : Nat) :
    (fs.recode ρ).holder id depth slot = fs.holder id depth slot := by
  unfold holder ancestor
  rw [outward?_recode]
  cases fs.outward? id depth with
  | none => rfl
  | some frame =>
    dsimp only
    rw [nextSlot_recode]

theorem get_recode (depth slot : Nat) :
    (fs.recode ρ).get id depth slot = (fs.get id depth slot).map (Value.recode ρ) := by
  simp only [get, holder_recode]
  cases fs.holder id depth slot with
  | error fault => rfl
  | ok frame =>
    simp only [values_recode, Array.getD_eq_getD_getElem?, Array.getElem?_map]
    cases (fs.values frame)[slot]? <;> rfl

@[simp] theorem next_recode : (fs.recode ρ).next = fs.next := by
  simp [next, Frames.recode]

theorem modify_recode {f g : Frame → Frame}
    (h : ∀ frame, g (frame.recode ρ) = (f frame).recode ρ) :
    (fs.recode ρ).all.modify id g = (fs.all.modify id f).map (Frame.recode ρ) := by
  apply Array.ext_getElem?
  intro i
  simp only [Frames.recode, Array.getElem?_modify, Array.getElem?_map]
  split
  · cases fs.all[i]? <;> simp [h]
  · rfl

@[simp] theorem alloc_recode (outer : Option FrameId) :
    (fs.recode ρ).alloc outer = (fs.alloc outer).recode ρ := by
  simp [alloc, Frames.recode, Frame.recode]

@[simp] theorem define_recode (value : Value) :
    (fs.recode ρ).define id (value.recode ρ) = (fs.define id value).recode ρ := by
  simp only [define, Frames.recode, mk.injEq]
  exact fs.modify_recode ρ id fun frame => by simp [Frame.recode]

@[simp] theorem replace_recode (slot : Nat) (value : Value) :
    (fs.recode ρ).replace id slot (value.recode ρ) = (fs.replace id slot value).recode ρ := by
  simp only [replace, Frames.recode, mk.injEq]
  exact fs.modify_recode ρ id fun frame => by simp [Frame.recode, Array.map_setIfInBounds]

end Frames

@[simp] theorem Closure.recode_label (c : Closure) : (c.recode ρ).label = c.label := rfl

theorem getD_objects_recode (objects : Array Fields) (object : ObjectId) :
    (objects.map (Dictionary.map (Value.recode ρ))).getD object Dictionary.empty =
      (objects.getD object Dictionary.empty).map (Value.recode ρ) := by
  simp only [Array.getD_eq_getD_getElem?, Array.getElem?_map]
  cases objects[object]? <;> simp

theorem Arrays.getD_recode (arrays : Arrays) (id : ArrayId) :
    Array.getD (Arrays.recode ρ arrays) id #[] = (arrays.getD id #[]).map (Value.recode ρ) := by
  simp only [Arrays.recode, Array.getD_eq_getD_getElem?, Array.getElem?_map]
  cases arrays[id]? <;> simp

theorem Value.textWithin_recode (arrays : Arrays) (depth : Nat) (v : Value) :
    (v.recode ρ).textWithin (Arrays.recode ρ arrays) depth = v.textWithin arrays depth := by
  induction depth generalizing v with
  | zero =>
    cases v with
    | bool value => cases value <;> rfl
    | _ => simp [Value.recode, Value.textWithin, Trait.recode]
  | succ depth ih =>
    cases v with
    | bool value => cases value <;> rfl
    | array id =>
      simp only [Value.recode, Value.textWithin, Arrays.getD_recode, Array.toList_map,
        List.map_map]
      congr 3
      apply List.map_congr_left
      intro element _
      cases element with
      | text value => rfl
      | _ => exact ih _
    | _ => simp [Value.recode, Value.textWithin, Trait.recode]

/-- A value is shown as before. -/
@[simp] theorem Value.shown_recode (arrays : Arrays) (length : Nat) (v : Value) :
    (v.recode ρ).shown (Arrays.recode ρ arrays) length = v.shown arrays length := by
  unfold Value.shown
  rw [Value.textWithin_recode]
  simp [Arrays.recode]

@[simp] theorem Value.line_recode (arrays : Arrays) (v : Value) :
    (v.recode ρ).line (Arrays.recode ρ arrays) = v.line arrays := by
  funext length
  rw [Value.line, Value.shown_recode, Value.line]

@[simp] theorem Value.text?_recode (arrays : Arrays) (v : Value) :
    (v.recode ρ).text? (Arrays.recode ρ arrays) = v.text? arrays := by
  unfold Value.text?
  rw [Value.shown_recode]

end LoxLang
