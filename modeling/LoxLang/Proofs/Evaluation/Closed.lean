import LoxLang.Proofs.Evaluation.Framing

/-!
# Closed machines

A frame is referred to as the current one, as the one around another frame, and as the one around
the code of a closure. In a closed machine each frame that is referred to is there
(`Machine.Closed`). The machine of a sound scene is closed, since each of these frames has a record.
-/

namespace LoxLang

/-! ## Closures of a value -/

/-- The closures of a class are its methods, those of the classes it extends, and those that are
called on the class itself. -/
inductive Class.Holds : Class → Closure → Prop
  | method {c : Class} {name : String} {f : Closure} (h : c.methods.get? name = some f) : Holds c f
  | superclass {c d : Class} {f : Closure} (h : c.superclass = some d) (hf : Holds d f) : Holds c f
  | metaclass {c d : Class} {f : Closure} (h : c.metaclass = some d) (hf : Holds d f) : Holds c f

/-- The closures that can be called by way of a value. -/
inductive Value.Holds : Value → Closure → Prop
  | function {id : Identity} {f : Closure} : Holds (.function id f) f
  | classValue {c : Class} {f : Closure} (h : c.Holds f) : Holds (.classValue c) f
  | instanceOf {id : ObjectId} {c : Class} {f : Closure} (h : c.Holds f) :
      Holds (.instanceOf id c) f
  | traitValue {id : Identity} {t : Trait} {name : String} {f : Closure}
      (h : t.methods.get? name = some f) : Holds (.traitValue id t) f

/-- All closures of a value lie in frames that are there. -/
def Value.Inside (frames : Frames) (v : Value) : Prop :=
  ∀ f, v.Holds f → ∀ id, f.frame = some id → id < frames.size

/-- Every frame that is referred to is there, and lies in an earlier one, if in any. -/
structure Machine.Closed (m : Machine) : Prop where
  current : ∀ id, m.current = some id → id < m.frames.size
  outer : ∀ id outer, m.frames.outer? id = some outer → outer < id ∧ id < m.frames.size
  stored : ∀ v, m.Stores v → v.Inside m.frames

/-! ## Machines of sound scenes -/

variable {known : Site → Prop} {s : Scene}

theorem Class.Sound.holds {c : Class} {f : Closure} (h : c.Sound known s) (hf : c.Holds f) :
    f.SoundMethod known s := by
  induction hf with
  | method hmethod => exact h.methods _ _ hmethod
  | superclass hsuper _ ih => exact ih (h.superclass hsuper)
  | metaclass hmeta _ ih => exact ih (h.metaclass hmeta)

theorem Closure.SoundMethod.inside {f : Closure} (h : f.SoundMethod known s)
    (recorded : s.Recorded) : ∀ id, f.frame = some id → id < s.machine.frames.size := by
  obtain ⟨p, hmatches, -⟩ := h
  exact lt_next_of_matches recorded hmatches

theorem Value.Sound.inside {v : Value} (h : v.Sound known s) (recorded : s.Recorded) :
    v.Inside s.machine.frames := by
  intro f hf
  cases hf with
  | function =>
    obtain ⟨p, hmatches, -⟩ := h
    exact lt_next_of_matches recorded hmatches
  | classValue hc => exact (Class.Sound.holds h hc).inside recorded
  | instanceOf hc => exact (Class.Sound.holds h hc).inside recorded
  | traitValue ht => exact Closure.SoundMethod.inside (h _ _ ht) recorded

theorem Scene.Sound.closed (sound : s.Sound known)
    (current : ∀ id, s.machine.current = some id → id < s.machine.frames.size) :
    s.machine.Closed where
  current := current
  outer id outer houter := by
    rcases Nat.lt_or_ge id s.machine.frames.size with hlt | hge
    · have hsize : id < s.records.size := sound.recorded.size ▸ hlt
      exact ⟨sound.recorded.outward id _ (Array.getElem?_eq_getElem hsize) outer houter, hlt⟩
    · rw [s.machine.frames.outer?_eq_none hge] at houter
      cases houter
  stored v hv := (sound.stored v hv).inside sound.recorded

/-- The machine at a position of the text is closed. -/
theorem Scene.At.closed {p : Position} (here : s.At p) (sound : s.Sound known) :
    s.machine.Closed :=
  sound.closed (lt_next_of_matches sound.recorded here.reached)

end LoxLang
