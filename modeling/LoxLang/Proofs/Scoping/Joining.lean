import LoxLang.Proofs.Scoping.Relabelling
import LoxLang.Proofs.Scoping.Tables

/-!
# Resolving one program behind another

Where two programs are each resolved without a problem, the one followed by the other can have
problems of the composition of traits only: the traits that the first one declares are known in the
second. If it has none, it has the bindings of both programs.
-/

namespace LoxLang

namespace Scoping

/-- The walk over a whole program. -/
abbrev walk (program : List Stmt) : Analysis :=
  resolveBody ⟨.outside, .outside⟩ program Analysis.start.restart

theorem resolve_eq_ok_iff {program : List Stmt} {table : Bindings} :
    resolve program = .ok table ↔ (walk program).problems = [] ∧ (walk program).bindings = table := by
  unfold resolve resolveWith
  cases hproblems : (walk program).problems <;> simp [hproblems]

theorem resolve_eq_error {program : List Stmt} {problems : List Problem}
    (h : resolve program = .error problems) : (walk program).problems = problems := by
  unfold resolve resolveWith at h
  cases hproblems : (walk program).problems <;> simp_all

theorem resolveBody_append (context : Context) (body body' : List Stmt) (a : Analysis) :
    resolveBody context (body ++ body') a = resolveBody context body' (resolveBody context body a) := by
  induction body generalizing a with
  | nil => rfl
  | cons statement rest ih => exact ih _

/-- Outside of all scopes one is so behind every statement. -/
theorem endOf_nil (body : List Stmt) : Position.endOf [] body = [] := by
  induction body with
  | nil => rfl
  | cons statement rest ih =>
    have hafter : Position.after statement [] = [] := by
      unfold Position.after
      split <;> rfl
    unfold Position.endOf at ih ⊢
    rw [List.foldl_cons, hafter, ih]

/-- Behind a program without problems there are no scopes. -/
theorem scopes_walk {program : List Stmt} (formed : FormedBody program)
    (nodup : (idsOf (occurrencesInBody program)).Nodup) (clean : (walk program).problems = []) :
    (walk program).scopes = [] := by
  have hwalk := lexical_resolveBody program ⟨.outside, .outside⟩ [] (by simp [Position.Settled])
    formed nodup Analysis.start.restart rfl (fun id _ => getElem?_none id) clean
  have hnames : (walk program).scopes.map Scope.names = [] := by
    rw [← List.map_nil (f := Layer.begun), ← endOf_nil program]
    exact hwalk.1
  exact List.map_eq_nil_iff.mp hnames

/-- A program that is resolved without a problem is resolved with other lines and later references
to the same bindings. -/
theorem resolve_relabel {program : List Stmt} {table : Bindings} {ρ : Relabelling} {shift : RefId}
    (ids : ∀ id, ρ.id id = id + shift) (h : resolve program = .ok table) :
    ∃ table', resolve (relabelBody ρ program) = .ok table' ∧
      (∀ id < shift, table'[id]? = none) ∧ ∀ id, table'[id + shift]? = table[id]? := by
  obtain ⟨line, later⟩ := ρ
  obtain rfl : later = (· + shift) := funext ids
  obtain ⟨hproblems, rfl⟩ := resolve_eq_ok_iff.mp h
  let w : Resettling := ⟨line, shift, Bindings.none, false⟩
  have hstart : w.Matches Analysis.start.restart Analysis.start.restart :=
    ⟨.nil, fun _ => rfl, rfl, fun _ _ => rfl, fun id => by
      exact (getElem?_none _).trans (getElem?_none id).symm⟩
  have hwalk := Resettling.matches_resolveBody program ⟨.outside, .outside⟩ _ _ hstart
  have hclean : (walk (relabelBody w.labels program)).problems = [] := by
    have hshared := hwalk.problems
    rw [hproblems] at hshared
    have hall : ∀ problems, w.shared problems = problems := fun problems =>
      List.filter_eq_self.mpr fun _ _ => rfl
    rwa [hall, hall] at hshared
  refine ⟨_, resolve_eq_ok_iff.mpr ⟨hclean, rfl⟩, fun id hid => ?_, hwalk.bindings⟩
  exact (hwalk.earlier id hid).trans (getElem?_none id)

/-- A program behind another one has the bindings that it has on its own, or is refused for the
composition of its traits. -/
theorem resolve_joined {first second : List Stmt} {table added : Bindings} {ρ : Relabelling}
    {shift : RefId} (formed : FormedBody first) (nodup : (idsOf (occurrencesInBody first)).Nodup)
    (ids : ∀ id, ρ.id id = id + shift) (h : resolve first = .ok table) (below : table.Below shift)
    (h' : resolve second = .ok added) :
    match resolve (first ++ relabelBody ρ second) with
    | .ok joined =>
      (∀ id < shift, joined[id]? = table[id]?) ∧ ∀ id, joined[id + shift]? = added[id]?
    | .error problems => ∀ p ∈ problems, p.cause.isConflict = true := by
  obtain ⟨line, later⟩ := ρ
  obtain rfl : later = (· + shift) := funext ids
  obtain ⟨hproblems, rfl⟩ := resolve_eq_ok_iff.mp h
  obtain ⟨hproblems', rfl⟩ := resolve_eq_ok_iff.mp h'
  -- The second source alone is matched with the second source behind the first, which may add only
  -- conflicts with what the first one has declared.
  let w : Resettling := ⟨line, shift, (walk first).bindings, true⟩
  have hstart : w.Matches Analysis.start.restart (walk first) := by
    refine ⟨?_, (fun h => nomatch h), ?_, fun _ _ => rfl, fun id => ?_⟩
    · rw [scopes_walk formed nodup hproblems]
      exact .nil
    · rw [hproblems]
      rfl
    · exact (below _ (Nat.le_add_left shift id)).trans (getElem?_none id).symm
  have hwalk := Resettling.matches_resolveBody second ⟨.outside, .outside⟩ _ _ hstart
  rw [← resolveBody_append] at hwalk
  split
  · next joined hjoined =>
    obtain ⟨-, rfl⟩ := resolve_eq_ok_iff.mp hjoined
    exact ⟨hwalk.earlier, hwalk.bindings⟩
  · next problems hrefused =>
    have hshared := hwalk.problems
    rw [hproblems'] at hshared
    have hnone : w.shared problems = [] := by
      rw [← resolve_eq_error hrefused]
      exact hshared
    intro p hp
    have hcounts := List.filter_eq_nil_iff.mp hnone p hp
    simpa [w] using hcounts

end Scoping

end LoxLang
