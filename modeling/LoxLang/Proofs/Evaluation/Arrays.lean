import LoxLang.Proofs.Evaluation.Ledger
import LoxLang.Proofs.Value.Indices

/-!
# Arrays as stores

An array is known by its number, whatever variables, fields or other arrays hold it or one of its
functions. So what its slots hold is told by the acts of a run alone: `nil` since it was made, and
since then what was stored last (`Holds`). Acts keep to that (`Entry.Lawful`): they get what is
held, store into one slot, make an array that there was not, or are refused and change nothing.
All audited runs do (`keep_lawful`).
-/

namespace LoxLang

/-! ## What arrays hold -/

/-- A slot of an array holds a value. -/
def Arrays.Slot (arrays : Arrays) (a : ArrayId) (i : Nat) (v : Value) : Prop :=
  ∃ elements, arrays[a]? = some elements ∧ elements[i]? = some v

/-- There is an array, of this length. -/
def Arrays.Sized (arrays : Arrays) (a : ArrayId) (n : Nat) : Prop :=
  ∃ elements, arrays[a]? = some elements ∧ elements.size = n

/-! ## What acts tell of arrays -/

/-- An act makes an array of the size that its argument means. -/
def Entry.Makes (e : Entry) (a : ArrayId) (n : Nat) : Prop :=
  ∃ size line m, e.act = .make [size] line ∧ size.Means n ∧ e.outcome = .ok (.array a) m

/-- An act stores a value at the index that its first argument means. -/
def Entry.Stores (e : Entry) (a : ArrayId) (i : Nat) (v : Value) : Prop :=
  ∃ index line m, e.act = .use a .set [index, v] line ∧ index.Means i ∧ e.outcome = .ok v m

/-- What a slot holds behind acts, the latest of which stand first: `nil` from when its array was
made, and a value from when it was stored until another one is. -/
inductive Holds : List Entry → ArrayId → Nat → Value → Prop
  | made {e : Entry} {earlier : List Entry} {a : ArrayId} {n i : Nat} (makes : e.Makes a n)
      (within : i < n) : Holds (e :: earlier) a i .nil
  | stored {e : Entry} {earlier : List Entry} {a : ArrayId} {i : Nat} {v : Value}
      (stores : e.Stores a i v) : Holds (e :: earlier) a i v
  | kept {e : Entry} {earlier : List Entry} {a : ArrayId} {i : Nat} {v : Value}
      (spared : ∀ w, ¬e.Stores a i w) (before : Holds earlier a i v) :
      Holds (e :: earlier) a i v

/-- Arrays are what acts tell of them: each was made by one of them with the length that it has,
and its slots hold what is told. -/
structure Arrays.Told (arrays : Arrays) (entries : List Entry) : Prop where
  slot : ∀ a i v, arrays.Slot a i v ↔ Holds entries a i v
  sized : ∀ a n, arrays.Sized a n ↔ ∃ e ∈ entries, e.Makes a n

/-! ## Lawful acts -/

/-- Why no array is made where there is room for so many elements. -/
inductive MakeRefused (room : Nat) : List Value → FailureCause → Prop
  | arity {arguments : List Value} (h : arguments.length ≠ 1) :
    MakeRefused room arguments (.wrongArity 1 arguments.length)
  | kind {size : Value} (h : size.NoInteger) : MakeRefused room [size] (.array .notASize)
  | negative {size : Value} {z : Int} (meant : size.Means z) (h : z < 0) :
    MakeRefused room [size] (.array .notASize)
  | tooLarge {size : Value} {n : Nat} (meant : size.Means n) (h : maxArraySize < n) :
    MakeRefused room [size] (.array .tooLarge)
  | noRoom {size : Value} {n : Nat} (meant : size.Means n) (h : room < n) :
    MakeRefused room [size] (.array .tooLarge)

/-- Why a function of an array is refused. -/
inductive UseRefused (earlier : List Entry) (a : ArrayId) (method : ArrayMethod) :
    List Value → FailureCause → Prop
  | arity {arguments : List Value} (h : arguments.length ≠ method.arity) :
    UseRefused earlier a method arguments (.wrongArity method.arity arguments.length)
  | kind {index : Value} {rest : List Value} (h : index.NoInteger) :
    UseRefused earlier a method (index :: rest) (.array .notAnIndex)
  | negative {index : Value} {rest : List Value} {z : Int} (meant : index.Means z) (h : z < 0) :
    UseRefused earlier a method (index :: rest) (.array .negativeIndex)
  | beyond {index : Value} {rest : List Value} {i : Nat} (meant : index.Means i)
    (h : ∀ v, ¬Holds earlier a i v) :
    UseRefused earlier a method (index :: rest) (.array .noSuchIndex)

/-- Arrays that differ from others in what one slot holds. -/
structure Arrays.Stored (arrays : Arrays) (a : ArrayId) (i : Nat) (v : Value)
    (arrays' : Arrays) : Prop where
  here : ∀ w, arrays'.Slot a i w ↔ w = v
  elsewhere : ∀ b j, ¬(b = a ∧ j = i) → ∀ w, arrays'.Slot b j w ↔ arrays.Slot b j w
  sized : ∀ b n, arrays'.Sized b n ↔ arrays.Sized b n

/-- An act that treats arrays as it should behind the acts that are earlier. -/
inductive Entry.Lawful (earlier : List Entry) : Entry → Prop
  | made {size : Value} {line n : Nat} {m : Machine} (meant : size.Means n)
      (fits : n ≤ maxArraySize) (room : n ≤ m.host.room m.arrays.size)
      (fresh : ∀ k, ¬m.arrays.Sized m.arrays.size k)
      (outcome : Entry.outcome ⟨.make [size] line, m⟩ = .ok (.array m.arrays.size)
        { m with arrays := m.arrays.push (Array.replicate n .nil) }) :
      Lawful earlier ⟨.make [size] line, m⟩
  | unmade {arguments : List Value} {line : Nat} {m : Machine} {cause : FailureCause}
      (refused : MakeRefused (m.host.room m.arrays.size) arguments cause)
      (outcome : Entry.outcome ⟨.make arguments line, m⟩ = .error (.failed line cause) m) :
      Lawful earlier ⟨.make arguments line, m⟩
  | got {a : ArrayId} {index v : Value} {line i : Nat} {m : Machine} (meant : index.Means i)
      (held : Holds earlier a i v)
      (outcome : Entry.outcome ⟨.use a .get [index] line, m⟩ = .ok v m) :
      Lawful earlier ⟨.use a .get [index] line, m⟩
  | stored {a : ArrayId} {index v w : Value} {line i : Nat} {m : Machine} {arrays : Arrays}
      (meant : index.Means i) (held : Holds earlier a i w) (changed : m.arrays.Stored a i v arrays)
      (outcome : Entry.outcome ⟨.use a .set [index, v] line, m⟩ =
        .ok v { m with arrays := arrays }) :
      Lawful earlier ⟨.use a .set [index, v] line, m⟩
  | refused {a : ArrayId} {method : ArrayMethod} {arguments : List Value} {line : Nat}
      {m : Machine} {cause : FailureCause} (refused : UseRefused earlier a method arguments cause)
      (outcome : Entry.outcome ⟨.use a method arguments line, m⟩ =
        .error (.failed line cause) m) :
      Lawful earlier ⟨.use a method arguments line, m⟩
  | printed {value : Value} {m : Machine}
      (arrays : (Run.left (Entry.outcome ⟨.print value, m⟩)).arrays = m.arrays) :
      Lawful earlier ⟨.print value, m⟩

/-- The acts of a run behind which there are these arrays. -/
structure LawfulRun (arrays : Arrays) (entries : List Entry) : Prop where
  told : arrays.Told entries
  lawful : ∀ e earlier, e :: earlier <:+ entries →
    e.before.arrays.Told earlier ∧ e.Lawful earlier

/-! ## How acts end -/

section

variable {m : Machine} {line : Nat}

theorem outcome_make_arity {arguments : List Value} (h : arguments.length ≠ 1) :
    Entry.outcome ⟨.make arguments line, m⟩ =
      .error (.failed line (.wrongArity 1 arguments.length)) m := by
  have hcheck : Evaluation.checkArity 1 arguments line =
      Run.fail line (.wrongArity 1 arguments.length) := if_neg (Ne.symm h)
  show EStateM.bind (Evaluation.checkArity 1 arguments line) _ m = _
  rw [hcheck]
  rfl

theorem outcome_make (size : Value) :
    Entry.outcome ⟨.make [size] line, m⟩ =
      match arraySize size (m.host.room m.arrays.size) with
      | .ok n => .ok (.array m.arrays.size)
          { m with arrays := m.arrays.push (Array.replicate n .nil) }
      | .error fault => .error (.failed line (.array fault)) m := by
  show EStateM.bind (Run.ofExcept line .array (arraySize size (m.host.room m.arrays.size))) _ m = _
  cases arraySize size (m.host.room m.arrays.size) <;> rfl

theorem outcome_use_arity {a : ArrayId} {method : ArrayMethod} {arguments : List Value}
    (h : arguments.length ≠ method.arity) :
    Entry.outcome ⟨.use a method arguments line, m⟩ =
      .error (.failed line (.wrongArity method.arity arguments.length)) m := by
  have hcheck : Evaluation.checkArity method.arity arguments line =
      Run.fail line (.wrongArity method.arity arguments.length) := if_neg (Ne.symm h)
  show EStateM.bind (Evaluation.checkArity method.arity arguments line) _ m = _
  rw [hcheck]
  rfl

/-- A function of an array that has its arguments fails at its index, or not at all. -/
theorem outcome_use {a : ArrayId} {method : ArrayMethod} {index : Value} {rest : List Value}
    (h : (index :: rest).length = method.arity) :
    Entry.outcome ⟨.use a method (index :: rest) line, m⟩ =
      match arrayIndex index (m.arrays.getD a #[]).size with
      | .ok i =>
        match method with
        | .get => .ok ((m.arrays.getD a #[]).getD i .nil) m
        | .set => .ok (rest.getD 0 .nil)
            { m with arrays := m.arrays.modify a (·.setIfInBounds i (rest.getD 0 .nil)) }
      | .error fault => .error (.failed line (.array fault)) m := by
  have hcheck : Evaluation.checkArity method.arity (index :: rest) line = pure () := if_pos h.symm
  show EStateM.bind (Evaluation.checkArity method.arity (index :: rest) line) _ m = _
  rw [hcheck]
  show EStateM.bind
    (Run.ofExcept line .array (arrayIndex index (m.arrays.getD a #[]).size)) _ m = _
  cases arrayIndex index (m.arrays.getD a #[]).size with
  | ok i => cases method <;> rfl
  | error fault => rfl

end

/-! ## Slots -/

section

variable {arrays arrays' : Arrays} {a : ArrayId} {i : Nat} {v : Value}

/-- What is read within the bounds of an array is what the slot holds. -/
theorem Arrays.slot_getD (h : i < (arrays.getD a #[]).size) :
    arrays.Slot a i ((arrays.getD a #[]).getD i .nil) := by
  cases helements : arrays[a]? with
  | none =>
    have hnone : arrays.getD a #[] = #[] := by
      rw [Array.getD_eq_getD_getElem?, helements, Option.getD_none]
    rw [hnone] at h
    cases h
  | some elements =>
    have hsome : arrays.getD a #[] = elements := by
      rw [Array.getD_eq_getD_getElem?, helements, Option.getD_some]
    rw [hsome] at h ⊢
    exact ⟨elements, helements, by
      rw [Array.getD_eq_getD_getElem?, Array.getElem?_eq_getElem h, Option.getD_some]⟩

theorem Arrays.Slot.lt (h : arrays.Slot a i v) : i < (arrays.getD a #[]).size := by
  obtain ⟨elements, helements, hv⟩ := h
  rw [Array.getD_eq_getD_getElem?, helements]
  exact (Array.getElem?_eq_some_iff.mp hv).1

theorem Arrays.slot_push_iff (elements : Array Value) :
    Arrays.Slot (arrays.push elements) a i v ↔
      arrays.Slot a i v ∨ a = arrays.size ∧ elements[i]? = some v := by
  unfold Arrays.Slot
  rw [Array.getElem?_push]
  split
  · next h =>
    subst h
    simp
  · next h => simp [h]

theorem Arrays.sized_push_iff (elements : Array Value) (n : Nat) :
    Arrays.Sized (arrays.push elements) a n ↔
      arrays.Sized a n ∨ a = arrays.size ∧ elements.size = n := by
  unfold Arrays.Sized
  rw [Array.getElem?_push]
  split
  · next h =>
    subst h
    simp
  · next h => simp [h]

/-- There is no array yet that has the number of the next one. -/
theorem Arrays.not_sized_size (arrays : Arrays) (n : Nat) : ¬arrays.Sized arrays.size n := by
  rintro ⟨elements, helements, -⟩
  simp at helements

/-- Storing into a slot that there is changes that slot and nothing else. -/
theorem Arrays.stored_modify {w : Value} (h : arrays.Slot a i w) (v : Value) :
    arrays.Stored a i v (arrays.modify a (·.setIfInBounds i v)) := by
  obtain ⟨elements, helements, hw⟩ := h
  have hi : i < elements.size := (Array.getElem?_eq_some_iff.mp hw).1
  have hmodified : ∀ b, (arrays.modify a (·.setIfInBounds i v))[b]? =
      if b = a then some (elements.setIfInBounds i v) else arrays[b]? := by
    intro b
    rw [Array.getElem?_modify]
    by_cases hb : b = a
    · rw [if_pos hb.symm, if_pos hb, hb, helements]
      rfl
    · rw [if_neg (Ne.symm hb), if_neg hb]
  refine ⟨?_, ?_, ?_⟩
  · intro u
    unfold Arrays.Slot
    simp [hmodified, hi, eq_comm]
  · intro b j hother u
    unfold Arrays.Slot
    rw [hmodified]
    split
    · next hb =>
      subst hb
      -- Another slot of the same array: only its index tells it apart.
      have hj : i ≠ j := fun hj => hother ⟨rfl, hj.symm⟩
      simp [helements, hj]
    · exact Iff.rfl
  · intro b n
    unfold Arrays.Sized
    rw [hmodified]
    split
    · next hb =>
      subst hb
      simp [helements]
    · exact Iff.rfl

/-! ## What is told behind an act -/

variable {entries : List Entry} {e : Entry}

/-- An act that neither makes nor stores. -/
theorem Arrays.Told.idle (h : arrays.Told entries) (makes : ∀ b n, ¬e.Makes b n)
    (stores : ∀ b j w, ¬e.Stores b j w) : arrays.Told (e :: entries) := by
  refine ⟨fun b j w => (h.slot b j w).trans ⟨.kept (stores b j), ?_⟩, fun b n => ?_⟩
  · intro holds
    cases holds with
    | made hmakes => exact absurd hmakes (makes _ _)
    | stored hstores => exact absurd hstores (stores _ _ _)
    | kept _ before => exact before
  · rw [h.sized]
    simp [makes]

theorem Arrays.Told.made (h : arrays.Told entries) {n : Nat}
    (makes : ∀ b k, e.Makes b k ↔ b = arrays.size ∧ k = n)
    (stores : ∀ b j w, ¬e.Stores b j w) :
    Arrays.Told (arrays.push (Array.replicate n .nil)) (e :: entries) := by
  refine ⟨fun b j w => ?_, fun b k => ?_⟩
  · rw [Arrays.slot_push_iff, h.slot]
    constructor
    · rintro (before | ⟨rfl, hnew⟩)
      · exact .kept (stores b j) before
      · obtain ⟨hj, rfl⟩ : j < n ∧ Value.nil = w := by
          simpa [Array.getElem?_replicate] using hnew
        exact .made ((makes _ _).mpr ⟨rfl, rfl⟩) hj
    · intro holds
      cases holds with
      | made hmakes hj =>
        obtain ⟨rfl, rfl⟩ := (makes _ _).mp hmakes
        exact .inr ⟨rfl, by simp [hj]⟩
      | stored hstores => exact absurd hstores (stores _ _ _)
      | kept _ before => exact .inl before
  · rw [Arrays.sized_push_iff, h.sized, Array.size_replicate, or_comm]
    simp [makes, eq_comm]

theorem Arrays.Told.stored (h : arrays.Told entries) (makes : ∀ b n, ¬e.Makes b n)
    (stores : ∀ b j w, e.Stores b j w ↔ (b = a ∧ j = i) ∧ w = v)
    (changed : arrays.Stored a i v arrays') : arrays'.Told (e :: entries) := by
  refine ⟨fun b j w => ?_, fun b n => ?_⟩
  · by_cases hhere : b = a ∧ j = i
    · obtain ⟨rfl, rfl⟩ := hhere
      rw [changed.here]
      constructor
      · rintro rfl
        exact .stored ((stores _ _ _).mpr ⟨⟨rfl, rfl⟩, rfl⟩)
      · intro holds
        cases holds with
        | made hmakes => exact absurd hmakes (makes _ _)
        | stored hstores => exact ((stores _ _ _).mp hstores).2
        | kept spared => exact absurd ((stores _ _ _).mpr ⟨⟨rfl, rfl⟩, rfl⟩) (spared v)
    -- Any other slot still holds what the entries before this one say.
    · rw [changed.elsewhere b j hhere, h.slot]
      have hspared : ∀ u, ¬e.Stores b j u := fun u hu => hhere ((stores _ _ _).mp hu).1
      refine ⟨.kept hspared, ?_⟩
      intro holds
      cases holds with
      | made hmakes => exact absurd hmakes (makes _ _)
      | stored hstores => exact absurd hstores (hspared _)
      | kept _ before => exact before
  · rw [changed.sized, h.sized]
    simp [makes]

end

/-! ## All acts -/

section

variable {m : Machine} {entries : List Entry}

theorem not_stores_make (arguments : List Value) (line : Nat) (m : Machine) (b : ArrayId)
    (j : Nat) (w : Value) : ¬Entry.Stores ⟨.make arguments line, m⟩ b j w := by
  rintro ⟨index, other, m', hact, -⟩
  cases hact

theorem not_makes_use (a : ArrayId) (method : ArrayMethod) (arguments : List Value) (line : Nat)
    (m : Machine) (b : ArrayId) (n : Nat) :
    ¬Entry.Makes ⟨.use a method arguments line, m⟩ b n := by
  rintro ⟨size, other, m', hact, -⟩
  cases hact

/-- An act that fails neither makes nor stores. -/
theorem Entry.idle_of_error {e : Entry} {stop : Stop} {m' : Machine}
    (h : e.outcome = .error stop m') :
    (∀ b n, ¬e.Makes b n) ∧ ∀ b j w, ¬e.Stores b j w := by
  refine ⟨?_, ?_⟩
  · rintro b n ⟨size, line, m₁, -, -, hok⟩
    rw [h] at hok
    cases hok
  · rintro b j w ⟨index, line, m₁, -, -, hok⟩
    rw [h] at hok
    cases hok

/-- An act is lawful behind others, and with it they tell of the arrays that it leaves. -/
def Act.Keeps (act : Act) (m : Machine) (entries : List Entry) : Prop :=
  Entry.Lawful entries ⟨act, m⟩ ∧ (Run.left (act.run m)).arrays.Told (⟨act, m⟩ :: entries)

/-- An act that fails may leave everything as it is. -/
theorem Act.keeps_of_error {act : Act} {stop : Stop} (told : m.arrays.Told entries)
    (lawful : Entry.Lawful entries ⟨act, m⟩) (h : Entry.outcome ⟨act, m⟩ = .error stop m) :
    act.Keeps m entries := by
  have hrun : act.run m = .error stop m := h
  obtain ⟨makes, stores⟩ := Entry.idle_of_error h
  refine ⟨lawful, ?_⟩
  rw [hrun]
  exact told.idle makes stores

/-- An integer is negative, or a natural number. -/
theorem neg_or_natCast (z : Int) : z < 0 ∨ ∃ n : Nat, z = n := by
  by_cases h : z < 0
  · exact .inl h
  · exact .inr ⟨z.toNat, (Int.toNat_of_nonneg (Int.not_lt.mp h)).symm⟩

/-- What is said of an array that is made. -/
theorem keeps_made {size : Value} {line n : Nat} (told : m.arrays.Told entries)
    (meant : size.Means n) (fits : n ≤ maxArraySize) (room : n ≤ m.host.room m.arrays.size)
    (houtcome : Entry.outcome ⟨.make [size] line, m⟩ = .ok (.array m.arrays.size)
      { m with arrays := m.arrays.push (Array.replicate n .nil) }) :
    (Act.make [size] line).Keeps m entries := by
  have hmakes : ∀ b k, Entry.Makes ⟨.make [size] line, m⟩ b k ↔ b = m.arrays.size ∧ k = n := by
    intro b k
    constructor
    · rintro ⟨other, line', m', hact, hk, hok⟩
      cases hact
      rw [houtcome] at hok
      cases hok
      exact ⟨rfl, Int.ofNat.inj (hk.unique meant)⟩
    · rintro ⟨rfl, rfl⟩
      exact ⟨size, line, _, rfl, meant, houtcome⟩
  have hrun : (Act.make [size] line).run m = _ := houtcome
  refine ⟨.made meant fits room m.arrays.not_sized_size houtcome, ?_⟩
  rw [hrun]
  exact told.made hmakes (not_stores_make _ _ _)

/-- What is said of a value that is got or stored. -/
theorem keeps_used {a : ArrayId} {method : ArrayMethod} {index held : Value} {rest : List Value}
    {line i : Nat} (told : m.arrays.Told entries) (meant : index.Means i)
    (slot : m.arrays.Slot a i held) (arity : (index :: rest).length = method.arity)
    (houtcome : Entry.outcome ⟨.use a method (index :: rest) line, m⟩ =
      match method with
      | .get => .ok held m
      | .set => .ok (rest.getD 0 .nil)
          { m with arrays := m.arrays.modify a (·.setIfInBounds i (rest.getD 0 .nil)) }) :
    (Act.use a method (index :: rest) line).Keeps m entries := by
  have hholds := (told.slot a i held).mp slot
  cases method with
  | get =>
    obtain rfl : rest = [] := by simpa [ArrayMethod.arity] using arity
    have hrun : (Act.use a .get [index] line).run m = .ok held m := houtcome
    refine ⟨.got meant hholds houtcome, ?_⟩
    rw [hrun]
    refine told.idle (not_makes_use _ _ _ _ _) ?_
    rintro b j w ⟨other, line', m', hact, -⟩
    cases hact
  | set =>
    obtain ⟨v, rfl⟩ : ∃ v, rest = [v] :=
      List.length_eq_one_iff.mp (by simpa [ArrayMethod.arity] using arity)
    have hstores : ∀ b j w, Entry.Stores ⟨.use a .set [index, v] line, m⟩ b j w ↔
        (b = a ∧ j = i) ∧ w = v := by
      intro b j w
      constructor
      -- An index means one number only, so that the entry stores at this slot alone.
      · rintro ⟨other, line', m', hact, hj, -⟩
        cases hact
        exact ⟨⟨rfl, Int.ofNat.inj (hj.unique meant)⟩, rfl⟩
      · rintro ⟨⟨rfl, rfl⟩, rfl⟩
        exact ⟨index, line, _, rfl, meant, houtcome⟩
    have hrun : (Act.use a .set [index, v] line).run m = _ := houtcome
    have hchanged := Arrays.stored_modify slot v
    refine ⟨.stored meant hholds hchanged houtcome, ?_⟩
    rw [hrun]
    exact told.stored (not_makes_use _ _ _ _ _) hstores hchanged

/-- A call of the function that makes arrays fails as it should, or makes one. -/
theorem keeps_make (told : m.arrays.Told entries) (arguments : List Value) (line : Nat) :
    (Act.make arguments line).Keeps m entries := by
  have hfail : ∀ {cause : FailureCause}, MakeRefused (m.host.room m.arrays.size) arguments cause →
      Entry.outcome ⟨.make arguments line, m⟩ = .error (.failed line cause) m →
      (Act.make arguments line).Keeps m entries :=
    fun refused houtcome => Act.keeps_of_error told (.unmade refused houtcome) houtcome
  by_cases harity : arguments.length = 1
  · obtain ⟨size, rfl⟩ := List.length_eq_one_iff.mp harity
    have houtcome : Entry.outcome ⟨.make [size] line, m⟩ = _ := outcome_make size
    rcases size.noInteger_or_means with hnone | ⟨z, hz⟩
    · rw [arraySize_of_noInteger hnone] at houtcome
      exact hfail (.kind hnone) houtcome
    · rw [arraySize_of_means hz] at houtcome
      rcases neg_or_natCast z with hneg | ⟨n, rfl⟩
      · rw [if_pos hneg] at houtcome
        exact hfail (.negative hz hneg) houtcome
      · rw [if_neg (Int.not_lt.mpr (Int.natCast_nonneg n)), Int.toNat_natCast] at houtcome
        by_cases hlarge : maxArraySize < n
        · rw [if_pos hlarge] at houtcome
          exact hfail (.tooLarge hz hlarge) houtcome
        · rw [if_neg hlarge] at houtcome
          by_cases hroom : m.host.room m.arrays.size < n
          · rw [if_pos hroom] at houtcome
            exact hfail (.noRoom hz hroom) houtcome
          · rw [if_neg hroom] at houtcome
            exact keeps_made told hz (Nat.le_of_not_lt hlarge) (Nat.le_of_not_lt hroom) houtcome
  · exact hfail (.arity harity) (outcome_make_arity harity)

/-- A call of a function of an array fails as it should, gets what is held or stores. -/
theorem keeps_use (told : m.arrays.Told entries) (a : ArrayId) (method : ArrayMethod)
    (arguments : List Value) (line : Nat) : (Act.use a method arguments line).Keeps m entries := by
  have hfail : ∀ {cause : FailureCause}, UseRefused entries a method arguments cause →
      Entry.outcome ⟨.use a method arguments line, m⟩ = .error (.failed line cause) m →
      (Act.use a method arguments line).Keeps m entries :=
    fun refused houtcome => Act.keeps_of_error told (.refused refused houtcome) houtcome
  -- The checks in the order in which they are made: arguments, kind of index, sign, length.
  by_cases harity : arguments.length = method.arity
  · obtain ⟨index, rest, rfl⟩ : ∃ index rest, arguments = index :: rest := by
      cases arguments with
      | nil => cases method <;> cases harity
      | cons index rest => exact ⟨index, rest, rfl⟩
    have houtcome : Entry.outcome ⟨.use a method (index :: rest) line, m⟩ = _ := outcome_use harity
    rcases index.noInteger_or_means with hnone | ⟨z, hz⟩
    · rw [arrayIndex_of_noInteger hnone] at houtcome
      exact hfail (.kind hnone) houtcome
    · rw [arrayIndex_of_means hz] at houtcome
      rcases neg_or_natCast z with hneg | ⟨i, rfl⟩
      · rw [if_pos hneg] at houtcome
        exact hfail (.negative hz hneg) houtcome
      · rw [if_neg (Int.not_lt.mpr (Int.natCast_nonneg i)), Int.toNat_natCast] at houtcome
        by_cases hbeyond : (m.arrays.getD a #[]).size ≤ i
        · rw [if_pos hbeyond] at houtcome
          refine hfail (.beyond hz fun v hv => ?_) houtcome
          exact Nat.not_lt_of_le hbeyond ((told.slot a i v).mpr hv).lt
        · rw [if_neg hbeyond] at houtcome
          exact keeps_used told hz (Arrays.slot_getD (Nat.lt_of_not_le hbeyond)) harity houtcome
  · exact hfail (.arity harity) (outcome_use_arity harity)

/-- A print may add to the output, and no more. -/
theorem keeps_print (told : m.arrays.Told entries) (value : Value) :
    (Act.print value).Keeps m entries := by
  have harrays : (Run.left ((Act.print value).run m)).arrays = m.arrays := by
    rw [left_print]
  refine ⟨.printed harrays, ?_⟩
  rw [harrays]
  refine told.idle ?_ ?_
  · rintro b n ⟨size, line, m', hact, -⟩
    cases hact
  · rintro b j w ⟨index, line, m', hact, -⟩
    cases hact

/-- All audited runs are lawful. -/
theorem keep_lawful : Audits.Keep LawfulRun := by
  refine Audits.keep fun act m entries run => ?_
  obtain ⟨hlawful, htold⟩ : act.Keeps m entries := by
    cases act with
    | make arguments line => exact keeps_make run.told arguments line
    | use a method arguments line => exact keeps_use run.told a method arguments line
    | print value => exact keeps_print run.told value
  refine ⟨htold, ?_⟩
  intro e earlier hsuffix
  rcases List.suffix_cons_iff.mp hsuffix with heq | hearlier
  · cases heq
    exact ⟨run.told, hlawful⟩
  · exact run.lawful e earlier hearlier

theorem lawfulRun_nil : LawfulRun #[] [] := by
  refine ⟨⟨fun a i v => ?_, fun a n => ?_⟩, fun e earlier h => ?_⟩
  · constructor
    · rintro ⟨elements, helements, -⟩
      simp at helements
    · intro h
      cases h
  · constructor
    · rintro ⟨elements, helements, -⟩
      simp at helements
    · rintro ⟨e, he, -⟩
      cases he
  · simp at h

end

end LoxLang
