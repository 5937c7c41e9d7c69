import LoxLang.Proofs.Scoping.Lexical

/-!
# Tables of bindings

The bindings of a new tree are merged into the table of all trees before it. Since their
occurrences are counted through, what the table says of the earlier trees stays as it is.
-/

namespace LoxLang

namespace Bindings

/-- Entries that are inserted one after the other, no two of them for the same occurrence. -/
theorem getElem?_foldl_insert (entries : List (RefId × Binding)) (table : Bindings) (id : RefId)
    (distinct : entries.Pairwise fun a b => ¬compare a.1 b.1 = .eq) :
    (∀ b, (id, b) ∈ entries → (entries.foldl (fun t e => t.insert e.1 e.2) table)[id]? = some b) ∧
      ((∀ b, (id, b) ∉ entries) →
        (entries.foldl (fun t e => t.insert e.1 e.2) table)[id]? = table[id]?) := by
  induction entries generalizing table with
  | nil => simp
  | cons entry rest ih =>
    obtain ⟨hfirst, hrest⟩ := List.pairwise_cons.mp distinct
    obtain ⟨found, kept⟩ := ih (table.insert entry.1 entry.2) hrest
    refine ⟨fun b hb => ?_, fun hnone => ?_⟩
    · rcases List.mem_cons.mp hb with rfl | hb
      · refine (kept fun b' hb' => hfirst _ hb' Std.ReflCmp.compare_self).trans ?_
        simp
      · exact found b hb
    · refine (kept fun b hb => hnone b (List.mem_cons_of_mem _ hb)).trans ?_
      rw [Std.TreeMap.getElem?_insert, if_neg]
      intro heq
      have hid : entry.1 = id := Std.LawfulEqCmp.eq_of_compare heq
      exact hnone entry.2 (by simp [← hid])

/-- In merged tables the added one counts first. -/
theorem getElem?_merge (table added : Bindings) (id : RefId) :
    (table.merge added)[id]? = added[id]?.or table[id]? := by
  unfold merge
  rw [Std.TreeMap.foldl_eq_foldl_toList]
  obtain ⟨found, kept⟩ := getElem?_foldl_insert added.toList table id
    Std.TreeMap.distinct_keys_toList
  cases hadded : added[id]? with
  | some b => exact found b (Std.TreeMap.mem_toList_iff_getElem?_eq_some.mpr hadded)
  | none =>
    refine kept fun b hb => ?_
    rw [Std.TreeMap.mem_toList_iff_getElem?_eq_some, hadded] at hb
    cases hb

/-- The table has the bindings that the text says. -/
def Agrees (table : Bindings) (known : Site → Prop) : Prop :=
  ∀ x, known x → ∀ ref, x.moment.reference? = some ref →
    table[ref.id]? = x.position.lookup? ref.name.text

/-- No occurrence from `next` on is bound yet. -/
def Below (table : Bindings) (next : RefId) : Prop :=
  ∀ id, next ≤ id → table[id]? = Option.none

variable {table added : Bindings} {known : Site → Prop} {program : List Stmt} {next : RefId}

/-- A table agrees with the text of a further program, too, when the bindings of that are
merged into it. -/
theorem Agrees.merge (agrees : table.Agrees known) (below : table.Below next)
    (old : ∀ x, known x → ∀ ref, x.moment.reference? = some ref → ref.id < next)
    (formed : FormedBody program) (nodup : (idsOf (occurrencesInBody program)).Nodup)
    (new : ∀ id ∈ idsOf (occurrencesInBody program), next ≤ id)
    (h : Scoping.resolve program = .ok added) :
    (table.merge added).Agrees fun x => known x ∨ x ∈ sitesInBody [] program := by
  obtain ⟨elsewhere, bound⟩ := Scoping.bindings_of_resolve formed nodup h
  intro x hx ref href
  rw [getElem?_merge]
  rcases hx with hx | hx
  · have hmissing : added[ref.id]? = Option.none := by
      refine elsewhere ref.id fun hmem => ?_
      exact absurd (old x hx ref href) (Nat.not_lt.mpr (new ref.id hmem))
    rw [hmissing, Option.none_or]
    exact agrees x hx ref href
  · have hid := new ref.id (refersWithin_body program [] x hx ref href)
    rw [bound x hx ref href, below ref.id hid, Option.or_none]

theorem Below.merge {next' : RefId} (below : table.Below next) (hnext : next ≤ next')
    (formed : FormedBody program) (nodup : (idsOf (occurrencesInBody program)).Nodup)
    (inside : ∀ id ∈ idsOf (occurrencesInBody program), id < next')
    (h : Scoping.resolve program = .ok added) : (table.merge added).Below next' := by
  intro id hid
  have hmissing : added[id]? = Option.none := by
    refine (Scoping.bindings_of_resolve formed nodup h).1 id fun hmem => ?_
    exact absurd (inside id hmem) (Nat.not_lt.mpr hid)
  rw [getElem?_merge, hmissing, Option.none_or]
  exact below id (Nat.le_trans hnext hid)

end Bindings

end LoxLang
