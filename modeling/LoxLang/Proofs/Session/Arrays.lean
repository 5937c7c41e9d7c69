import LoxLang.Proofs.Evaluation.Arrays
import LoxLang.Proofs.Session.Ledger

/-!
# Arrays of sessions

Behind any inputs, arrays are what the acts of their runs tell of them, and each of these acts was
lawful (`arrays_are_fixed_stores`). What has been stored into a slot is got from it until the next
value is stored there, through whatever value the array is reached.
-/

namespace LoxLang

section

variable {arrays : Arrays} {entries earlier between : List Entry} {stored : Entry} {a : ArrayId}
  {i n : Nat} {v : Value}

/-- A slot holds the value that was stored last. -/
theorem holds_of_stored (h : stored.Stores a i v)
    (since : ∀ e ∈ between, ∀ w, ¬e.Stores a i w) : Holds (between ++ stored :: earlier) a i v := by
  induction between with
  | nil => exact .stored h
  | cons e rest ih =>
    exact .kept (since e List.mem_cons_self) (ih fun e he => since e (List.mem_cons_of_mem _ he))

/-- Behind acts that tell of the arrays, a slot holds one value. -/
theorem Arrays.Told.holds_unique (told : arrays.Told entries) {w : Value}
    (h : Holds entries a i v) (h' : Holds entries a i w) : v = w := by
  obtain ⟨elements, helements, hv⟩ := (told.slot a i v).mpr h
  obtain ⟨elements', helements', hw⟩ := (told.slot a i w).mpr h'
  cases helements.symm.trans helements'
  exact Option.some.inj (hv.symm.trans hw)

/-- Getting from a slot yields what it holds. -/
theorem Entry.Lawful.get {index : Value} {line : Nat} {m : Machine}
    (lawful : Entry.Lawful earlier ⟨.use a .get [index] line, m⟩) (told : m.arrays.Told earlier)
    (meant : index.Means i) (held : Holds earlier a i v) :
    Entry.outcome ⟨.use a .get [index] line, m⟩ = .ok v m := by
  generalize he : Entry.mk (.use a .get [index] line) m = e at lawful
  cases lawful with
  | got meant' held' outcome =>
    cases he
    obtain rfl := Int.ofNat.inj (meant'.unique meant)
    rw [told.holds_unique held held']
    exact outcome
  | refused refused outcome =>
    cases he
    cases refused with
    | arity h => exact absurd rfl h
    | kind h => exact absurd meant (Value.noInteger_iff.mp h _)
    | negative meant' h =>
      obtain rfl := meant'.unique meant
      exact absurd h (Int.not_lt.mpr (Int.natCast_nonneg i))
    | beyond meant' h =>
      obtain rfl := Int.ofNat.inj (meant'.unique meant)
      exact absurd held (h v)
  | _ => cases he

/-- An array that there was at an act is there with the same length behind later ones. -/
theorem LawfulRun.sized (run : LawfulRun arrays entries) {e : Entry}
    (h : e :: earlier <:+ entries) (sized : e.before.arrays.Sized a n) : arrays.Sized a n := by
  obtain ⟨made, hmade, hmakes⟩ := ((run.lawful e earlier h).1.sized a n).mp sized
  exact (run.told.sized a n).mpr ⟨made, h.subset (List.mem_cons_of_mem _ hmade), hmakes⟩

end

/-- The length that is asked of an array is the one that it has. -/
theorem property_length {m : Machine} {a : ArrayId} {n : Nat} (sized : m.arrays.Sized a n)
    (line : Nat) :
    property (.array a) ⟨"length", line⟩ m = .ok (.number (Float.ofNat n)) m := by
  obtain ⟨elements, helements, rfl⟩ := sized
  have hsize : (m.arrays.getD a #[]).size = elements.size := by
    rw [Array.getD_eq_getD_getElem?, helements, Option.getD_some]
  rw [← hsize]
  rfl

/-- Arrays that keep the length with which they were made, and whose slots hold what was stored
last. The acts of the session so far tell which arrays there are and what their slots hold, and
each of these acts was lawful: what it says depends on what is held, not on how the array was
reached. -/
structure FixedStores (m : Machine) (entries : List Entry) : Prop where
  run : LawfulRun m.arrays entries
  sized : ∀ e earlier, e :: earlier <:+ entries → ∀ a n, e.before.arrays.Sized a n →
    m.arrays.Sized a n
  length : ∀ a n, m.arrays.Sized a n → ∀ line,
    property (.array a) ⟨"length", line⟩ m = .ok (.number (Float.ofNat n)) m
  latest : ∀ a index line before stored between earlier,
    ⟨.use a .get [index] line, before⟩ :: (between ++ stored :: earlier) <:+ entries →
    ∀ (i : Nat) v, index.Means i → stored.Stores a i v → (∀ e ∈ between, ∀ w, ¬e.Stores a i w) →
    Entry.outcome ⟨.use a .get [index] line, before⟩ = .ok v before

/-- Whatever has been run in a session, its arrays are stores of fixed sizes. The acts that tell so
are entered in a ledger, which does not change what is run. -/
theorem arrays_are_fixed_stores :
    (∀ budget program l, Audit.outcome (Audit.interpret budget program l) =
      interpret budget program l.machine) ∧
    (∀ budget e l, Audit.outcome (Audit.evaluate budget e l) = evaluate budget e l.machine) ∧
    ∀ host sink events, FixedStores ((Session.start host sink).through events).machine
      ((Session.start host sink).actsThrough [] events) := by
  refine ⟨fun budget program => (audits_interpret budget program).outcome,
    fun budget e => ((auditsAt budget).evaluate e).outcome, ?_⟩
  intro host sink events
  have hrun := Session.acts_through keep_lawful events (Session.start host sink) lawfulRun_nil
  refine ⟨hrun, fun e earlier h a n => hrun.sized h, fun a n => property_length, ?_⟩
  intro a index line before stored between earlier hsuffix i v meant hstored since
  obtain ⟨htold, hlawful⟩ := hrun.lawful _ _ hsuffix
  exact hlawful.get htold meant (holds_of_stored hstored since)

end LoxLang
