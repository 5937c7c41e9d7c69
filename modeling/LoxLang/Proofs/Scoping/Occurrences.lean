import LoxLang.Proofs.Scoping.Tables

/-!
# Where occurrences are looked up

Whatever occurs in a tree is looked up at one of its sites (`refersToAll_body`). So a table that has
the bindings that the text says for all sites of a tree is, for the occurrences of the tree, the one
that the tree is resolved to (`Bindings.Agrees.restrictsTo`).
-/

namespace LoxLang

/-! ## Sites of occurrences -/

/-- Each of the identities is looked up at one of the sites. -/
def RefersToAll (sites : List Site) (ids : List RefId) : Prop :=
  ∀ id ∈ ids, ∃ x ∈ sites, ∃ ref, x.moment.reference? = some ref ∧ ref.id = id

namespace RefersToAll

variable {sites first second : List Site} {ids ids' : List RefId} {x : Site}

theorem append (h : RefersToAll first ids) (h' : RefersToAll second ids') :
    RefersToAll (first ++ second) (ids ++ ids') := by
  intro id hid
  rcases List.mem_append.mp hid with hid | hid
  · obtain ⟨x, hx, href⟩ := h id hid
    exact ⟨x, List.mem_append_left _ hx, href⟩
  · obtain ⟨x, hx, href⟩ := h' id hid
    exact ⟨x, List.mem_append_right _ hx, href⟩

/-- A further site, at which nothing has to be looked up. -/
theorem cons (h : RefersToAll sites ids) : RefersToAll (x :: sites) ids := by
  intro id hid
  obtain ⟨x, hx, href⟩ := h id hid
  exact ⟨x, List.mem_cons_of_mem _ hx, href⟩

theorem nil : RefersToAll sites [] :=
  nofun

theorem single {ref : Reference} {id : RefId} (href : x.moment.reference? = some ref)
    (hid : ref.id = id) : RefersToAll [x] [id] := by
  intro other hother
  exact ⟨x, List.mem_singleton_self x, ref, href, hid.trans (List.mem_singleton.mp hother).symm⟩

end RefersToAll

theorem refersToAll_readSites (p : Position) (refs : List Reference) :
    RefersToAll (readSites p refs) (idsOf (refs.map Reference.occurrence)) := by
  intro id hid
  simp only [idsOf, List.map_map, List.mem_map] at hid
  obtain ⟨ref, href, rfl⟩ := hid
  exact ⟨_, List.mem_map.mpr ⟨ref, href, rfl⟩, ref, rfl, rfl⟩

mutual

theorem Expr.refersToAll : ∀ (e : Expr) (p : Position),
    RefersToAll (e.sites p) (idsOf e.occurrences)
  | .literal _, _ => .nil
  | .unary _ _ operand, p => (operand.refersToAll p).cons
  | .binary left _ _ right, p => by
    simp only [Expr.sites, Expr.occurrences, idsOf_append]
    exact ((left.refersToAll p).append (right.refersToAll p)).cons
  | .logical left _ _ right, p => by
    simp only [Expr.sites, Expr.occurrences, idsOf_append]
    exact ((left.refersToAll p).append (right.refersToAll p)).cons
  | .conditional condition thenBranch elseBranch, p => by
    simp only [Expr.sites, Expr.occurrences, idsOf_append]
    exact (((condition.refersToAll p).append (thenBranch.refersToAll p)).append
      (elseBranch.refersToAll p)).cons
  | .grouping inner, p => (inner.refersToAll p).cons
  | .variable _, _ => .single rfl rfl
  | .assign ref value, p => by
    have hvalue := value.refersToAll p
    intro id hid
    rcases List.mem_cons.mp hid with rfl | hid
    · exact ⟨⟨p, .storing ref⟩, by simp [Expr.sites], ref, rfl, rfl⟩
    · obtain ⟨x, hx, href⟩ := hvalue id hid
      exact ⟨x, by simp [Expr.sites, hx], href⟩
  | .call callee arguments _, p => by
    simp only [Expr.sites, Expr.occurrences, idsOf_append]
    exact ((callee.refersToAll p).append (refersToAll_arguments arguments p)).cons
  | .get object _, p => (object.refersToAll p).cons
  | .set object _ value, p => by
    simp only [Expr.sites, Expr.occurrences, idsOf_append]
    exact ((object.refersToAll p).append (value.refersToAll p)).cons
  | .this _ _, _ => .single rfl rfl
  | .super _ _ _, _ => .single rfl rfl
  | .lambda _ function, p => (function.refersToAll p).cons

theorem refersToAll_arguments : ∀ (arguments : List Expr) (p : Position),
    RefersToAll (sitesInArguments p arguments) (idsOf (occurrencesInArguments arguments))
  | [], _ => .nil
  | argument :: rest, p => by
    simp only [sitesInArguments, occurrencesInArguments, idsOf_append]
    exact (argument.refersToAll p).append (refersToAll_arguments rest p)

theorem Function.refersToAll : ∀ (f : Function) (p : Position),
    RefersToAll (f.sites p) (idsOf f.occurrences)
  | .mk _ body, _ => refersToAll_body body _

theorem NamedFunction.refersToAll : ∀ (f : NamedFunction) (p : Position),
    RefersToAll (f.sites p) (idsOf f.occurrences)
  | .mk _ function, p => function.refersToAll p

theorem refersToAll_methods : ∀ (methods : List NamedFunction) (p : Position),
    RefersToAll (sitesInMethods p methods) (idsOf (occurrencesInMethods methods))
  | [], _ => .nil
  | method :: rest, p => by
    simp only [sitesInMethods, occurrencesInMethods, idsOf_append]
    exact (method.refersToAll p).append (refersToAll_methods rest p)

theorem Stmt.refersToAll : ∀ (s : Stmt) (p : Position),
    RefersToAll (s.sites p) (idsOf s.occurrences)
  | .expression value, p => (value.refersToAll p).cons
  | .print value, p => (value.refersToAll p).cons
  | .varDecl _ none, _ => .nil
  | .varDecl _ (some initial), _ => (initial.refersToAll _).cons
  | .block body, _ => (refersToAll_body body _).cons
  | .ifThen condition thenBranch none, p => by
    simp only [Stmt.sites, Stmt.occurrences, idsOf_append]
    exact ((condition.refersToAll p).append (thenBranch.refersToAll p)).cons
  | .ifThen condition thenBranch (some elseBranch), p => by
    simp only [Stmt.sites, Stmt.occurrences, idsOf_append]
    exact (((condition.refersToAll p).append (thenBranch.refersToAll p)).append
      (elseBranch.refersToAll p)).cons
  | .whileDo condition body, p => by
    simp only [Stmt.sites, Stmt.occurrences, idsOf_append]
    exact ((condition.refersToAll p).append (body.refersToAll p)).cons
  | .breakLoop _, _ => .nil
  | .returnWith _ none, _ => .nil
  | .returnWith _ (some value), p => (value.refersToAll p).cons
  | .funDecl declared, _ => (declared.refersToAll _).cons
  | .classDecl _ superclass traits methods classMethods, _ => by
    simp only [Stmt.sites, Stmt.occurrences, ← List.map_append, idsOf_append]
    exact (((refersToAll_readSites _ _).append (refersToAll_methods methods _)).append
      (refersToAll_methods classMethods _)).cons
  | .traitDecl _ traits methods, _ => by
    simp only [Stmt.sites, Stmt.occurrences, idsOf_append]
    exact ((refersToAll_readSites _ _).append (refersToAll_methods methods _)).cons

theorem refersToAll_body : ∀ (body : List Stmt) (p : Position),
    RefersToAll (sitesInBody p body) (idsOf (occurrencesInBody body))
  | [], _ => .nil
  | statement :: rest, p => by
    simp only [sitesInBody, occurrencesInBody, idsOf_append]
    exact (statement.refersToAll p).append (refersToAll_body rest _)

end

/-! ## Tables of one tree among others -/

namespace Bindings

variable {table own : Bindings} {known : Site → Prop} {program : List Stmt}

/-- For the occurrences of a tree, and for no others, the table that the tree is resolved to has an
entry, and a larger table has the same ones. -/
def RestrictsTo (table : Bindings) (program : List Stmt) : Prop :=
  ∃ own, Scoping.resolve program = .ok own ∧
    ∀ id, own[id]? = if id ∈ idsOf (occurrencesInBody program) then table[id]? else Option.none

theorem Agrees.restrictsTo (agrees : table.Agrees known)
    (sites : ∀ x ∈ sitesInBody [] program, known x) (formed : FormedBody program)
    (nodup : (idsOf (occurrencesInBody program)).Nodup)
    (resolved : Scoping.resolve program = .ok own) : table.RestrictsTo program := by
  obtain ⟨elsewhere, bound⟩ := Scoping.bindings_of_resolve formed nodup resolved
  refine ⟨own, resolved, fun id => ?_⟩
  split
  -- Both tables have what the text says for the site at which the occurrence is looked up.
  · next hid =>
    obtain ⟨x, hx, ref, href, rfl⟩ := refersToAll_body program [] id hid
    rw [bound x hx ref href, agrees x (sites x hx) ref href]
  · next hid => exact elsewhere id hid

end Bindings

end LoxLang
