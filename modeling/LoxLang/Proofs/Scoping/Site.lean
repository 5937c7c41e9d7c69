import LoxLang.Proofs.Scoping.Position
import LoxLang.Tree.Occurrence

/-!
# Sites

The sites of a tree are all moments at which a run of it can be, each with its position. What
is looked up at a site is one of the occurrences of the tree (`RefersWithin`).
-/

namespace LoxLang

/-! ## Moments of a run -/

/-- What a run can be about to do: evaluate an expression, store the value of an assignment
that has just been evaluated, or execute a statement. -/
inductive Moment
  | evaluating (e : Expr)
  | storing (ref : Reference)
  | executing (s : Stmt)

/-- The variable, `this` or `super` that is looked up at a moment. -/
def Moment.reference? : Moment → Option Reference
  | evaluating (.variable ref) => some ref
  | evaluating (.this id line) => some ⟨id, ⟨thisName, line⟩⟩
  | evaluating (.super id line _) => some ⟨id, ⟨superName, line⟩⟩
  | storing ref => some ref
  | _ => none

/-- A moment and its position in the text. -/
structure Site where
  position : Position
  moment : Moment

/-- Variables that are read at a position. -/
def readSites (position : Position) (refs : List Reference) : List Site :=
  refs.map fun ref => ⟨position, .evaluating (.variable ref)⟩

mutual

/-- The sites of an expression at a position. -/
def Expr.sites : Position → Expr → List Site
  | p, .literal value => [⟨p, .evaluating (.literal value)⟩]
  | p, .unary op line operand =>
    ⟨p, .evaluating (.unary op line operand)⟩ :: operand.sites p
  | p, .binary left op line right =>
    ⟨p, .evaluating (.binary left op line right)⟩ :: (left.sites p ++ right.sites p)
  | p, .logical left op line right =>
    ⟨p, .evaluating (.logical left op line right)⟩ :: (left.sites p ++ right.sites p)
  | p, .conditional condition thenBranch elseBranch =>
    ⟨p, .evaluating (.conditional condition thenBranch elseBranch)⟩ ::
      (condition.sites p ++ thenBranch.sites p ++ elseBranch.sites p)
  | p, .grouping inner => ⟨p, .evaluating (.grouping inner)⟩ :: inner.sites p
  | p, .variable ref => [⟨p, .evaluating (.variable ref)⟩]
  | p, .assign ref value =>
    ⟨p, .evaluating (.assign ref value)⟩ :: (value.sites p ++ [⟨p, .storing ref⟩])
  | p, .call callee arguments line =>
    ⟨p, .evaluating (.call callee arguments line)⟩ ::
      (callee.sites p ++ sitesInArguments p arguments)
  | p, .get object name => ⟨p, .evaluating (.get object name)⟩ :: object.sites p
  | p, .set object name value =>
    ⟨p, .evaluating (.set object name value)⟩ :: (object.sites p ++ value.sites p)
  | p, .this id line => [⟨p, .evaluating (.this id line)⟩]
  | p, .super id line method => [⟨p, .evaluating (.super id line method)⟩]
  | p, .lambda line function => ⟨p, .evaluating (.lambda line function)⟩ :: function.sites p

/-- The sites of the arguments of a call. -/
def sitesInArguments : Position → List Expr → List Site
  | _, [] => []
  | p, argument :: rest => argument.sites p ++ sitesInArguments p rest

/-- The sites of a function that is written at a position. -/
def Function.sites : Position → Function → List Site
  | p, .mk params body =>
    sitesInBody (p.enter (.function (.mk params body)) (params.map Name.text)) body

/-- The sites of a function with a name. -/
def NamedFunction.sites : Position → NamedFunction → List Site
  | p, .mk _ function => function.sites p

/-- The sites of the methods of a class or trait. -/
def sitesInMethods : Position → List NamedFunction → List Site
  | _, [] => []
  | p, method :: rest => method.sites p ++ sitesInMethods p rest

/-- The sites of a statement at a position. -/
def Stmt.sites : Position → Stmt → List Site
  | p, .expression value => ⟨p, .executing (.expression value)⟩ :: value.sites p
  | p, .print value => ⟨p, .executing (.print value)⟩ :: value.sites p
  | p, .varDecl name none => [⟨p, .executing (.varDecl name none)⟩]
  | p, .varDecl name (some initial) =>
    ⟨p, .executing (.varDecl name (some initial))⟩ :: initial.sites (p.within name.text)
  | p, .block body =>
    ⟨p, .executing (.block body)⟩ :: sitesInBody (p.enter (.block body) []) body
  | p, .ifThen condition thenBranch none =>
    ⟨p, .executing (.ifThen condition thenBranch none)⟩ ::
      (condition.sites p ++ thenBranch.sites p)
  | p, .ifThen condition thenBranch (some elseBranch) =>
    ⟨p, .executing (.ifThen condition thenBranch (some elseBranch))⟩ ::
      (condition.sites p ++ thenBranch.sites p ++ elseBranch.sites p)
  | p, .whileDo condition body =>
    ⟨p, .executing (.whileDo condition body)⟩ :: (condition.sites p ++ body.sites p)
  | p, .breakLoop line => [⟨p, .executing (.breakLoop line)⟩]
  | p, .returnWith line none => [⟨p, .executing (.returnWith line none)⟩]
  | p, .returnWith line (some value) =>
    ⟨p, .executing (.returnWith line (some value))⟩ :: value.sites p
  | p, .funDecl declared =>
    ⟨p, .executing (.funDecl declared)⟩ :: declared.sites (p.declare declared.name.text)
  | p, .classDecl name superclass traits methods classMethods =>
    ⟨p, .executing (.classDecl name superclass traits methods classMethods)⟩ ::
      (readSites (p.within name.text) (superclass.toList ++ traits) ++
        sitesInMethods (p.methods name superclass.isSome) methods ++
        sitesInMethods (p.methods name superclass.isSome) classMethods)
  | p, .traitDecl name traits methods =>
    ⟨p, .executing (.traitDecl name traits methods)⟩ ::
      (readSites (p.within name.text) traits ++
        sitesInMethods (p.methods name false) methods)

/-- The sites of statements that stand one after the other. -/
def sitesInBody : Position → List Stmt → List Site
  | _, [] => []
  | p, statement :: rest => statement.sites p ++ sitesInBody (p.after statement) rest

end

/-! ## References of a tree -/

/-- The identities of the occurrences in a list. -/
def idsOf (occurrences : List Occurrence) : List RefId :=
  occurrences.map Occurrence.id

theorem idsOf_append (first second : List Occurrence) :
    idsOf (first ++ second) = idsOf first ++ idsOf second :=
  List.map_append

/-- What is looked up at some of the sites has one of the identities. -/
def RefersWithin (sites : List Site) (ids : List RefId) : Prop :=
  ∀ x ∈ sites, ∀ ref, x.moment.reference? = some ref → ref.id ∈ ids

theorem RefersWithin.append {first second : List Site} {ids ids' : List RefId}
    (h : RefersWithin first ids) (h' : RefersWithin second ids') :
    RefersWithin (first ++ second) (ids ++ ids') := by
  intro x hx ref href
  rcases List.mem_append.mp hx with hx | hx
  · exact List.mem_append_left _ (h x hx ref href)
  · exact List.mem_append_right _ (h' x hx ref href)

theorem RefersWithin.cons {x : Site} {sites : List Site} {ids : List RefId}
    (hx : ∀ ref, x.moment.reference? = some ref → ref.id ∈ ids) (h : RefersWithin sites ids) :
    RefersWithin (x :: sites) ids := by
  intro y hy ref href
  rcases List.mem_cons.mp hy with rfl | hy
  · exact hx ref href
  · exact h y hy ref href

theorem refersWithin_readSites (p : Position) (refs : List Reference) :
    RefersWithin (readSites p refs) (idsOf (refs.map Reference.occurrence)) := by
  intro x hx ref href
  simp only [readSites, List.mem_map] at hx
  obtain ⟨r, hr, rfl⟩ := hx
  simp only [Moment.reference?, Option.some.injEq] at href
  subst href
  simp only [idsOf, List.map_map, List.mem_map]
  exact ⟨r, hr, rfl⟩

/-- The head of a site list that looks nothing up. -/
private theorem no_reference {m : Moment} (h : m.reference? = none) {ids : List RefId} :
    ∀ ref, m.reference? = some ref → ref.id ∈ ids := by
  intro ref href
  rw [h] at href
  exact absurd href (by simp)

mutual

theorem Expr.refersWithin : ∀ (e : Expr) (p : Position),
    RefersWithin (e.sites p) (idsOf e.occurrences)
  | .literal _, _ => .cons (no_reference rfl) (by intro x hx; cases hx)
  | .unary _ _ operand, p => .cons (no_reference rfl) (operand.refersWithin p)
  | .binary left _ _ right, p => by
    simp only [Expr.sites, Expr.occurrences, idsOf_append]
    exact .cons (no_reference rfl) ((left.refersWithin p).append (right.refersWithin p))
  | .logical left _ _ right, p => by
    simp only [Expr.sites, Expr.occurrences, idsOf_append]
    exact .cons (no_reference rfl) ((left.refersWithin p).append (right.refersWithin p))
  | .conditional condition thenBranch elseBranch, p => by
    simp only [Expr.sites, Expr.occurrences, idsOf_append]
    exact .cons (no_reference rfl)
      (((condition.refersWithin p).append (thenBranch.refersWithin p)).append
        (elseBranch.refersWithin p))
  | .grouping inner, p => .cons (no_reference rfl) (inner.refersWithin p)
  | .variable ref, p => by
    intro x hx r hr
    simp only [Expr.sites, List.mem_singleton] at hx
    subst hx
    simp only [Moment.reference?, Option.some.injEq] at hr
    simp [← hr, Expr.occurrences, idsOf, Reference.occurrence]
  | .assign ref value, p => by
    have hvalue := value.refersWithin p
    intro x hx r hr
    simp only [Expr.sites, List.mem_cons, List.mem_append, List.not_mem_nil, or_false] at hx
    simp only [Expr.occurrences, idsOf, List.map_cons]
    rcases hx with rfl | hx | rfl
    · simp [Moment.reference?] at hr
    · exact List.mem_cons_of_mem _ (hvalue x hx r hr)
    · simp only [Moment.reference?, Option.some.injEq] at hr
      simp [← hr]
  | .call callee arguments _, p => by
    simp only [Expr.sites, Expr.occurrences, idsOf_append]
    exact .cons (no_reference rfl)
      ((callee.refersWithin p).append (refersWithin_arguments arguments p))
  | .get object _, p => .cons (no_reference rfl) (object.refersWithin p)
  | .set object _ value, p => by
    simp only [Expr.sites, Expr.occurrences, idsOf_append]
    exact .cons (no_reference rfl) ((object.refersWithin p).append (value.refersWithin p))
  | .this id line, p => by
    intro x hx r hr
    simp only [Expr.sites, List.mem_singleton] at hx
    subst hx
    simp only [Moment.reference?, Option.some.injEq] at hr
    simp [← hr, Expr.occurrences, idsOf]
  | .super id line method, p => by
    intro x hx r hr
    simp only [Expr.sites, List.mem_singleton] at hx
    subst hx
    simp only [Moment.reference?, Option.some.injEq] at hr
    simp [← hr, Expr.occurrences, idsOf]
  | .lambda _ function, p => .cons (no_reference rfl) (function.refersWithin p)

theorem refersWithin_arguments : ∀ (arguments : List Expr) (p : Position),
    RefersWithin (sitesInArguments p arguments) (idsOf (occurrencesInArguments arguments))
  | [], _ => by intro x hx; cases hx
  | argument :: rest, p => by
    simp only [sitesInArguments, occurrencesInArguments, idsOf_append]
    exact (argument.refersWithin p).append (refersWithin_arguments rest p)

theorem Function.refersWithin : ∀ (f : Function) (p : Position),
    RefersWithin (f.sites p) (idsOf f.occurrences)
  | .mk _ body, _ => refersWithin_body body _

theorem NamedFunction.refersWithin : ∀ (f : NamedFunction) (p : Position),
    RefersWithin (f.sites p) (idsOf f.occurrences)
  | .mk _ function, p => function.refersWithin p

theorem refersWithin_methods : ∀ (methods : List NamedFunction) (p : Position),
    RefersWithin (sitesInMethods p methods) (idsOf (occurrencesInMethods methods))
  | [], _ => by intro x hx; cases hx
  | method :: rest, p => by
    simp only [sitesInMethods, occurrencesInMethods, idsOf_append]
    exact (method.refersWithin p).append (refersWithin_methods rest p)

theorem Stmt.refersWithin : ∀ (s : Stmt) (p : Position),
    RefersWithin (s.sites p) (idsOf s.occurrences)
  | .expression value, p => .cons (no_reference rfl) (value.refersWithin p)
  | .print value, p => .cons (no_reference rfl) (value.refersWithin p)
  | .varDecl _ none, _ => .cons (no_reference rfl) (by intro x hx; cases hx)
  | .varDecl _ (some initial), _ => .cons (no_reference rfl) (initial.refersWithin _)
  | .block body, _ => .cons (no_reference rfl) (refersWithin_body body _)
  | .ifThen condition thenBranch none, p => by
    simp only [Stmt.sites, Stmt.occurrences, idsOf_append]
    exact .cons (no_reference rfl)
      ((condition.refersWithin p).append (thenBranch.refersWithin p))
  | .ifThen condition thenBranch (some elseBranch), p => by
    simp only [Stmt.sites, Stmt.occurrences, idsOf_append]
    exact .cons (no_reference rfl)
      (((condition.refersWithin p).append (thenBranch.refersWithin p)).append
        (elseBranch.refersWithin p))
  | .whileDo condition body, p => by
    simp only [Stmt.sites, Stmt.occurrences, idsOf_append]
    exact .cons (no_reference rfl) ((condition.refersWithin p).append (body.refersWithin p))
  | .breakLoop _, _ => .cons (no_reference rfl) (by intro x hx; cases hx)
  | .returnWith _ none, _ => .cons (no_reference rfl) (by intro x hx; cases hx)
  | .returnWith _ (some value), p => .cons (no_reference rfl) (value.refersWithin p)
  | .funDecl declared, _ => .cons (no_reference rfl) (declared.refersWithin _)
  | .classDecl _ superclass traits methods classMethods, _ => by
    simp only [Stmt.sites, Stmt.occurrences, ← List.map_append, idsOf_append]
    exact .cons (no_reference rfl)
      (((refersWithin_readSites _ _).append (refersWithin_methods methods _)).append
        (refersWithin_methods classMethods _))
  | .traitDecl _ traits methods, _ => by
    simp only [Stmt.sites, Stmt.occurrences, idsOf_append]
    exact .cons (no_reference rfl)
      ((refersWithin_readSites _ _).append (refersWithin_methods methods _))

theorem refersWithin_body : ∀ (body : List Stmt) (p : Position),
    RefersWithin (sitesInBody p body) (idsOf (occurrencesInBody body))
  | [], _ => by intro x hx; cases hx
  | statement :: rest, p => by
    simp only [sitesInBody, occurrencesInBody, idsOf_append]
    exact (statement.refersWithin p).append (refersWithin_body rest _)

end

end LoxLang
