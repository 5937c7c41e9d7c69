import LoxLang.Evaluation.Classes

/-!
# The names of a table of methods

A table of methods has each name once if it was built by entering names one after the other. A
name that is new to a table comes last in it.
-/

namespace LoxLang

namespace Dictionary

variable {α : Type}

theorem mem_keys_iff (d : Dictionary α) (name : String) :
    name ∈ d.keys ↔ d.contains name = true := by
  obtain ⟨entries⟩ := d
  simp only [keys, contains, get?]
  induction entries with
  | nil => simp [find?]
  | cons entry rest ih =>
    unfold find?
    by_cases h : entry.1 = name
    · simp [h]
    · have hne : name ≠ entry.1 := fun heq => h heq.symm
      simp [h, hne, ih]

theorem exists_get?_of_mem_keys {d : Dictionary α} {name : String} (h : name ∈ d.keys) :
    ∃ value, d.get? name = some value := by
  rwa [mem_keys_iff, contains, Option.isSome_iff_exists] at h

theorem keys_insert (d : Dictionary α) (name : String) (value : α) :
    (d.insert name value).keys = if name ∈ d.keys then d.keys else d.keys ++ [name] := by
  obtain ⟨entries⟩ := d
  simp only [keys, insert]
  induction entries with
  | nil => simp [put]
  | cons entry rest ih =>
    unfold put
    by_cases h : entry.1 = name
    · simp [h]
    · have hne : name ≠ entry.1 := fun heq => h heq.symm
      by_cases hrest : name ∈ rest.map Prod.fst
      · simp [h, hne, ih, hrest]
      · simp [h, hne, ih, hrest]

theorem mem_keys_insert (d : Dictionary α) (name other : String) (value : α) :
    other ∈ (d.insert name value).keys ↔ other = name ∨ other ∈ d.keys := by
  rw [keys_insert]
  by_cases h : name ∈ d.keys
  · rw [if_pos h]
    refine ⟨.inr, ?_⟩
    rintro (rfl | hother)
    · exact h
    · exact hother
  · rw [if_neg h, List.mem_append, List.mem_singleton, or_comm]

theorem nodup_keys_insert {d : Dictionary α} (h : d.keys.Nodup) (name : String) (value : α) :
    (d.insert name value).keys.Nodup := by
  rw [keys_insert]
  split
  · exact h
  · next hmem =>
    rw [List.nodup_append]
    refine ⟨h, by simp, ?_⟩
    rintro other hother _ hname rfl
    exact hmem (List.mem_singleton.mp hname ▸ hother)

theorem mem_sortedKeys (d : Dictionary α) (name : String) :
    name ∈ d.sortedKeys ↔ name ∈ d.keys :=
  List.mem_mergeSort

end Dictionary

/-- The order of strings is the same for all lists of the same names. -/
theorem mergeSort_eq_of_perm {names names' : List String} (h : names.Perm names') :
    (names.mergeSort fun m n => decide (m ≤ n)) =
      names'.mergeSort fun m n => decide (m ≤ n) := by
  have transitive : ∀ a b c : String,
      decide (a ≤ b) = true → decide (b ≤ c) = true → decide (a ≤ c) = true := by
    intro a b c hab hbc
    rw [decide_eq_true_iff] at hab hbc ⊢
    exact String.le_trans hab hbc
  have total : ∀ a b : String, (decide (a ≤ b) || decide (b ≤ a)) = true := by
    intro a b
    simpa using String.le_total a b
  refine List.Perm.eq_of_pairwise ?_ (List.pairwise_mergeSort transitive total names)
    (List.pairwise_mergeSort transitive total names') ?_
  · intro a b _ _ hab hba
    exact String.le_antisymm (of_decide_eq_true hab) (of_decide_eq_true hba)
  · exact ((List.mergeSort_perm names _).trans h).trans (List.mergeSort_perm names' _).symm

/-- The names of a body's methods come behind those of its traits. -/
theorem mem_keys_addBody (composed : Methods) (methods : List NamedFunction)
    (frame : Option FrameId) (name : String) :
    name ∈ (addBody composed methods frame).keys ↔
      name ∈ composed.keys ∨ ∃ method ∈ methods, method.name.text = name := by
  induction methods generalizing composed with
  | nil => simp [addBody]
  | cons first rest ih =>
    show name ∈ (addBody (composed.insert first.name.text _) rest frame).keys ↔ _
    rw [ih, Dictionary.mem_keys_insert]
    simp only [List.mem_cons, exists_eq_or_imp]
    rw [or_assoc, or_left_comm, eq_comm]

theorem nodup_keys_addBody {composed : Methods} (h : composed.keys.Nodup)
    (methods : List NamedFunction) (frame : Option FrameId) :
    (addBody composed methods frame).keys.Nodup := by
  induction methods generalizing composed with
  | nil => exact h
  | cons first rest ih => exact ih (Dictionary.nodup_keys_insert h _ _)

end LoxLang
