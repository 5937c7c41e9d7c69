import LoxLang.Proofs.Scoping.RenamedScopes

/-!
# Resolving a tree with another name for a variable

With another name for a variable that is new to the tree, every part of the walk finds what it
finds in the tree as it was. So a program that is accepted is accepted with the other name, too, and
has the same table (`resolve_rename`).
-/

namespace LoxLang

namespace Scoping

open Analysis

section

variable {ρ : Renaming} {around : List Holding} {a a' : Analysis} {holding : Holding}
  {scope scope' : Scope}

/-! ## Composition of traits -/

/-- Methods that can be added to those provided can be added so at any word. -/
theorem provide_of_clean {word : Name} {methods provided : List String}
    (clean : (provide word methods (provided, a)).2.problems = []) (word' : Name)
    (a' : Analysis) :
    provide word' methods (provided, a') = ((provide word methods (provided, a)).1, a') := by
  induction methods generalizing provided with
  | nil => rfl
  | cons method rest ih =>
    unfold provide at clean ⊢
    cases hcontains : provided.contains method with
    | true =>
      rw [hcontains, if_pos rfl] at clean
      have hnote := (onlyNotes_provide word rest provided _).precedes.clean clean
      simp [note] at hnote
    | false =>
      rw [hcontains] at clean
      exact ih clean

/-- The same traits are known after the renaming. -/
theorem Renamed.provideAll (h : Renamed ρ around a a') {refs : List Reference}
    (fresh : ρ.new ∉ refs.map (·.name.text)) {provided : List String}
    (clean : (provideAll refs (provided, a)).2.problems = []) :
    (Scoping.provideAll refs (provided, a)).2 = a ∧
      Scoping.provideAll (refs.map (Reference.rename ρ around)) (provided, a') =
        ((Scoping.provideAll refs (provided, a)).1, a') := by
  induction refs generalizing provided with
  | nil => exact ⟨rfl, rfl⟩
  | cons ref rest ih =>
    rw [List.map_cons, List.mem_cons, not_or] at fresh
    have hknown : knownTrait? (ref.rename ρ around).name.text a'.globalTraits a'.scopes =
        knownTrait? ref.name.text a.globalTraits a.scopes := by
      rw [h.globalTraits]
      exact h.scopes.knownTrait? (Ne.symm fresh.1) _
    rw [List.map_cons]
    unfold Scoping.provideAll at clean ⊢
    rw [hknown]
    cases hmethods : knownTrait? ref.name.text a.globalTraits a.scopes with
    | none =>
      simp only [hmethods] at clean ⊢
      exact ih fresh.2 clean
    | some methods =>
      simp only [hmethods] at clean ⊢
      -- A name that is provided twice would be a problem, and there is none.
      have hclean := (onlyNotes_provideAll rest _ _).precedes.clean clean
      rw [provide_of_clean hclean ref.name a] at clean ⊢
      rw [provide_of_clean hclean (ref.rename ρ around).name a']
      exact ih fresh.2 clean

theorem noteProvided_of_clean {provided : List String} {methods methods' : List NamedFunction}
    (clean : (noteProvided provided methods a).problems = [])
    (names : methods'.map NamedFunction.name = methods.map NamedFunction.name) (a' : Analysis) :
    noteProvided provided methods' a' = a' := by
  induction methods generalizing methods' a with
  | nil =>
    rw [List.map_eq_nil_iff.mp names]
    rfl
  | cons method rest ih =>
    obtain ⟨method', rest', rfl, hname, hrest⟩ := List.map_eq_cons_iff.mp names
    unfold noteProvided at clean ⊢
    have hclean := (onlyNotes_noteProvided provided rest _).precedes.clean clean
    cases hcontains : provided.contains method.name.text with
    | true =>
      rw [hcontains] at hclean
      simp [noteIf, note] at hclean
    | false =>
      rw [hname, hcontains]
      exact ih clean hrest

theorem withMethods_congr {provided : List String} {methods methods' : List NamedFunction}
    (names : methods'.map NamedFunction.name = methods.map NamedFunction.name) :
    withMethods provided methods' = withMethods provided methods := by
  have hfold : ∀ list : List NamedFunction, withMethods provided list =
      (list.map NamedFunction.name).foldl
        (fun names name => if names.contains name.text then names else names ++ [name.text])
        provided := fun list => by rw [withMethods, List.foldl_map]
  rw [hfold, hfold, names]

/-- A composition that is no misuse provides the same methods after the renaming. -/
theorem Renamed.checkComposition (h : Renamed ρ around a a') {traits : List Reference}
    {methods methods' : List NamedFunction} (fresh : ρ.new ∉ traits.map (·.name.text))
    (names : methods'.map NamedFunction.name = methods.map NamedFunction.name)
    (clean : (checkComposition traits methods a).2.problems = []) :
    (Scoping.checkComposition traits methods a).2 = a ∧
      Scoping.checkComposition (traits.map (Reference.rename ρ around)) methods' a' =
        ((Scoping.checkComposition traits methods a).1, a') := by
  unfold Scoping.checkComposition at clean ⊢
  dsimp only at clean ⊢
  obtain ⟨hsame, hother⟩ :=
    h.provideAll fresh ((onlyNotes_noteProvided _ methods _).precedes.clean clean)
  rw [hother, hsame] at *
  exact ⟨noteProvided_of_clean clean rfl a,
    by rw [noteProvided_of_clean clean names a', withMethods_congr names]⟩

theorem names_renameMethods (ρ : Renaming) (methods : List NamedFunction) (around : List Holding)
    (position : Nat) :
    (renameMethods ρ around position methods).map NamedFunction.name =
      methods.map NamedFunction.name := by
  induction methods generalizing position with
  | nil => rfl
  | cons method rest ih =>
    obtain ⟨name, function⟩ := method
    rw [renameMethods, List.map_cons, List.map_cons, ih]
    rfl

/-! ## Classes and traits -/

/-- What is declared otherwise than by a `var` or as a parameter keeps its name. -/
theorem rename_declared (ρ : Renaming) (name : Name) (around : List Holding) :
    name.rename ρ (ρ.declare false name.text around) = name := by
  cases around with
  | nil => exact name.rename_nil ρ
  | cons holding outer =>
    have hname : ρ.written (ρ.declare false name.text (holding :: outer)) name.text =
        name.text := by
      by_cases hold : name.text = ρ.old
      · simp [Renaming.written, Renaming.declare, Renaming.hold, hold, denotesRenamed]
      · simp [Renaming.written, hold]
    exact congrArg (Name.mk · name.line) hname

theorem survives_declareOther {name : Name} (other : name.text ≠ ρ.new) :
    Survives ρ around (ρ.declare false name.text around) (fun a => (a.declare name).define name)
      fun a => (a.declare name).define name := by
  have hdeclare : Survives ρ around (ρ.declare false name.text around) _ _ :=
    survives_declareName false other
  rwa [rename_declared] at hdeclare

theorem survives_resolveSuperclass (name : Name) (superclass : Option Reference)
    (other : name.text ≠ ρ.new) (fresh : ρ.new ∉ superclass.toList.map (·.name.text)) :
    Survives ρ around around (resolveSuperclass name superclass)
      (resolveSuperclass name (superclass.map (Reference.rename ρ around))) := by
  cases superclass with
  | none => exact survives_id around
  | some ref =>
    have href : ref.name.text ≠ ρ.new := by simpa [eq_comm] using fresh
    refine (survives_noteIf _ _ _ fun _ _ _ hself => ?_).comp (survives_resolveReference ref href)
      (precedes_resolveReference ref)
    -- A class cannot extend itself by the other name, since it does not have that name.
    have hself : ρ.written around ref.name.text = name.text := of_decide_eq_true hself
    unfold Renaming.written at hself
    split at hself
    · exact absurd hself.symm other
    · exact decide_eq_true hself

theorem survives_resolveClassHead {name : Name} {superclass : Option Reference}
    {traits : List Reference} {methods methods' : List NamedFunction}
    (other : name.text ≠ ρ.new) (superclasses : ρ.new ∉ superclass.toList.map (·.name.text))
    (fresh : ρ.new ∉ traits.map (·.name.text))
    (names : methods'.map NamedFunction.name = methods.map NamedFunction.name) :
    Survives ρ around (ρ.declare false name.text around)
      (resolveClassHead name superclass traits methods)
      (resolveClassHead name
        (superclass.map (Reference.rename ρ (ρ.declare false name.text around)))
        (traits.map (Reference.rename ρ (ρ.declare false name.text around))) methods') := by
  have hreads : Survives ρ around (ρ.declare false name.text around)
      (fun a => resolveReferences traits
        (resolveSuperclass name superclass ((a.declare name).define name)))
      fun a => resolveReferences
        (traits.map (Reference.rename ρ (ρ.declare false name.text around)))
        (resolveSuperclass name
          (superclass.map (Reference.rename ρ (ρ.declare false name.text around)))
          ((a.declare name).define name)) :=
    ((survives_declareOther other).comp
      (survives_resolveSuperclass name superclass other superclasses)
      (precedes_resolveSuperclass name superclass)).comp (survives_resolveReferences traits fresh)
      (precedes_resolveReferences traits)
  intro a a' h clean
  rw [resolveClassHead_eq] at clean ⊢
  rw [resolveClassHead_eq]
  have hread := hreads a a' h ((onlyNotes_checkComposition traits methods _).precedes.clean clean)
  obtain ⟨hsame, hother⟩ := hread.checkComposition fresh names clean
  rw [hsame, hother]
  exact hread

/-- The methods of a trait are known by its name. -/
theorem RenamedScope.insert (h : RenamedScope ρ holding scope scope') {name : String}
    (other : name ≠ ρ.new) (kept : nameIn ρ holding name = name) (provided : List String) :
    RenamedScope ρ holding { scope with traits := scope.traits.insert name provided }
      { scope' with traits := scope'.traits.insert name provided } := by
  refine ⟨h.fresh, h.held, h.slots, fun text htext => ?_⟩
  have htraits := h.traits text htext
  grind [nameIn, Dictionary.get?_insert]

theorem survives_insert {name : String} (other : name ≠ ρ.new) (provided : List String) :
    Survives ρ (ρ.declare false name around) (ρ.declare false name around)
      (·.changeTraits (·.insert name provided)) (·.changeTraits (·.insert name provided)) := by
  rintro ⟨scopes, _, _, _⟩ ⟨scopes', _, _, _⟩ ⟨hscopes, htraits, hbindings, hproblems⟩ _
  dsimp only at hscopes htraits hbindings hproblems
  subst htraits hbindings hproblems
  cases around with
  | nil =>
    cases hscopes
    exact ⟨.nil, rfl, rfl, rfl⟩
  | cons holding outer =>
    cases hscopes with
    | cons inner rest =>
      have hkept : nameIn ρ (ρ.hold false name holding) name = name := by
        by_cases hold : name = ρ.old
        · simp [nameIn, Renaming.hold, hold]
        · simp [nameIn, hold]
      exact ⟨.cons (inner.insert other hkept provided) rest, rfl, rfl, rfl⟩

theorem survives_resolveTraitHead {name : Name} {traits : List Reference}
    {methods methods' : List NamedFunction} (other : name.text ≠ ρ.new)
    (fresh : ρ.new ∉ traits.map (·.name.text))
    (names : methods'.map NamedFunction.name = methods.map NamedFunction.name) :
    Survives ρ around (ρ.declare false name.text around) (resolveTraitHead name traits methods)
      (resolveTraitHead name
        (traits.map (Reference.rename ρ (ρ.declare false name.text around))) methods') := by
  have hreads : Survives ρ around (ρ.declare false name.text around)
      (fun a => resolveReferences traits ((a.declare name).define name))
      fun a => resolveReferences
        (traits.map (Reference.rename ρ (ρ.declare false name.text around)))
        ((a.declare name).define name) :=
    (survives_declareOther other).comp (survives_resolveReferences traits fresh)
      (precedes_resolveReferences traits)
  intro a a' h clean
  unfold resolveTraitHead at clean ⊢
  dsimp only at clean ⊢
  have hclean := clean
  rw [problems_changeTraits] at hclean
  have hread := hreads a a' h ((onlyNotes_checkComposition traits methods _).precedes.clean hclean)
  obtain ⟨hsame, hother⟩ := hread.checkComposition fresh names hclean
  dsimp only at hsame hother
  rw [hsame] at clean ⊢
  rw [hother]
  exact survives_insert other _ _ _ hread clean

theorem survives_enterClass (name : Name) (superclass superclass' : Option Reference)
    (same : superclass'.isSome = superclass.isSome) :
    Survives ρ (ρ.declare false name.text around)
      (holdingsOfMethods ρ name superclass.isSome around) (enterClass name superclass)
      (enterClass name superclass') := by
  have hthis : ∀ around, Survives ρ around (.nothing :: around)
      (fun a => a.enter.bindImplicit thisName name.line)
      fun a => a.enter.bindImplicit thisName name.line :=
    fun around => survives_implicit ρ.old_explicit.1 ρ.new_explicit.1 name.line
  unfold enterClass
  rw [same]
  cases superclass.isSome with
  | false => exact hthis _
  | true =>
    exact (survives_implicit ρ.old_explicit.2 ρ.new_explicit.2 name.line).comp (hthis _)
      fun a => precedes_bindImplicit a.enter _ _

theorem survives_leaveClass (name : Name) (superclass superclass' : Option Reference)
    (same : superclass'.isSome = superclass.isSome) :
    Survives ρ (holdingsOfMethods ρ name superclass.isSome around)
      (ρ.declare false name.text around) (leaveClass superclass) (leaveClass superclass') := by
  unfold leaveClass
  rw [same]
  cases superclass.isSome with
  | false => exact survives_leave _
  | true => exact (survives_leave _).comp (survives_leave _) precedes_leave

/-! ## The whole walk -/

/-- The scopes behind statements whose names begin at a position. -/
def behindBody (ρ : Renaming) (position : Nat) : List Stmt → List Holding → List Holding
  | [], around => around
  | statement :: rest, around =>
    behindBody ρ (position + statement.names.length) rest (statement.behind ρ position around)

/-- A statement stands in the same scopes from its start to its end. -/
theorem exists_behind (s : Stmt) (position : Nat) (holding : Holding) (outer : List Holding) :
    ∃ holding', s.behind ρ position (holding :: outer) = holding' :: outer :=
  match s with
  | .varDecl name initial => ⟨_, rfl⟩
  | .ifThen condition thenBranch none => exists_behind thenBranch _ holding outer
  | .ifThen condition thenBranch (some elseBranch) => by
    obtain ⟨holding', hthen⟩ := exists_behind thenBranch
      (position + condition.names.length) holding outer
    simp only [Stmt.behind, hthen]
    exact exists_behind elseBranch _ holding' outer
  | .whileDo condition body => exists_behind body _ holding outer
  | .funDecl declared => ⟨_, rfl⟩
  | .classDecl .. => ⟨_, rfl⟩
  | .traitDecl .. => ⟨_, rfl⟩
  | .expression _ => ⟨_, rfl⟩
  | .print _ => ⟨_, rfl⟩
  | .block _ => ⟨_, rfl⟩
  | .breakLoop _ => ⟨_, rfl⟩
  | .returnWith _ _ => ⟨_, rfl⟩

theorem exists_behindBody (body : List Stmt) (position : Nat) (holding : Holding)
    (outer : List Holding) :
    ∃ holding', behindBody ρ position body (holding :: outer) = holding' :: outer := by
  induction body generalizing position holding with
  | nil => exact ⟨holding, rfl⟩
  | cons statement rest ih =>
    obtain ⟨holding', hstatement⟩ := exists_behind statement position holding outer
    rw [behindBody, hstatement]
    exact ih _ holding'

theorem exists_declareParameters (params : List Name) (position : Nat) (holding : Holding)
    (outer : List Holding) :
    ∃ holding', ρ.declareParameters position params (holding :: outer) = holding' :: outer := by
  induction params generalizing position holding with
  | nil => exact ⟨holding, rfl⟩
  | cons param rest ih => exact ih _ _

mutual

theorem survives_resolveExpr : ∀ (e : Expr) (context : Context) (around : List Holding)
    (position : Nat), ρ.new ∉ e.names →
    Survives ρ around around (resolveExpr context e)
      (resolveExpr context (e.rename ρ around position))
  | .literal _, _, around, _, _ => survives_id around
  | .unary _ _ operand, context, around, position, fresh =>
    survives_resolveExpr operand context around position fresh
  | .binary left _ _ right, context, around, position, fresh => by
    rw [Expr.names, List.mem_append, not_or] at fresh
    exact (survives_resolveExpr left context around position fresh.1).comp
      (survives_resolveExpr right context around _ fresh.2) (precedes_resolveExpr right context)
  | .logical left _ _ right, context, around, position, fresh => by
    rw [Expr.names, List.mem_append, not_or] at fresh
    exact (survives_resolveExpr left context around position fresh.1).comp
      (survives_resolveExpr right context around _ fresh.2) (precedes_resolveExpr right context)
  | .conditional condition thenBranch elseBranch, context, around, position, fresh => by
    rw [Expr.names, List.mem_append, List.mem_append, not_or, not_or] at fresh
    exact ((survives_resolveExpr condition context around position fresh.1.1).comp
      (survives_resolveExpr thenBranch context around _ fresh.1.2)
      (precedes_resolveExpr thenBranch context)).comp
      (survives_resolveExpr elseBranch context around _ fresh.2)
      (precedes_resolveExpr elseBranch context)
  | .grouping inner, context, around, position, fresh =>
    survives_resolveExpr inner context around position fresh
  | .variable ref, _, _, _, fresh =>
    survives_resolveReference ref (by simpa [Expr.names, eq_comm] using fresh)
  | .assign ref value, context, around, position, fresh => by
    rw [Expr.names, List.mem_cons, not_or] at fresh
    exact (survives_resolveExpr value context around _ fresh.2).comp
      (survives_bind ref.id (Ne.symm fresh.1)) fun a => precedes_bind a ref.id ref.name.text
  | .call callee arguments _, context, around, position, fresh => by
    rw [Expr.names, List.mem_append, not_or] at fresh
    exact (survives_resolveExpr callee context around position fresh.1).comp
      (survives_resolveArguments arguments context around _ fresh.2)
      (precedes_resolveArguments arguments context)
  | .get object _, context, around, position, fresh => by
    rw [Expr.names, List.mem_append, not_or] at fresh
    exact survives_resolveExpr object context around position fresh.1
  | .set object _ value, context, around, position, fresh => by
    rw [Expr.names, List.mem_append, List.mem_cons, not_or, not_or] at fresh
    exact (survives_resolveExpr value context around _ fresh.2.2).comp
      (survives_resolveExpr object context around position fresh.1)
      (precedes_resolveExpr object context)
  | .this id line, context, _, _, _ => survives_resolveThis context.body id line
  | .super id line _, context, _, _, _ => survives_resolveSuper context.body id line
  | .lambda _ function, _, around, position, fresh =>
    survives_resolveFunction function _ around position fresh

theorem survives_resolveArguments : ∀ (arguments : List Expr) (context : Context)
    (around : List Holding) (position : Nat), ρ.new ∉ namesInArguments arguments →
    Survives ρ around around (resolveArguments context arguments)
      (resolveArguments context (renameArguments ρ around position arguments))
  | [], _, around, _, _ => survives_id around
  | argument :: rest, context, around, position, fresh => by
    rw [namesInArguments, List.mem_append, not_or] at fresh
    exact (survives_resolveExpr argument context around position fresh.1).comp
      (survives_resolveArguments rest context around _ fresh.2)
      (precedes_resolveArguments rest context)

theorem survives_resolveFunction : ∀ (f : Function) (context : Context) (around : List Holding)
    (position : Nat), ρ.new ∉ f.names →
    Survives ρ around around (resolveFunction context f)
      (resolveFunction context (f.rename ρ around position))
  | .mk params body, context, around, position, fresh => by
    rw [Function.names, List.mem_append, not_or] at fresh
    have henter : Survives ρ around (ρ.declareParameters position params (.nothing :: around))
        (fun a => params.foldl declareParameter a.enter)
        fun a => (renameParameters ρ position params (.nothing :: around)).foldl
          declareParameter a.enter :=
      survives_enter.comp (survives_declareParameters params position fresh.1)
        (precedes_declareParameters params)
    have hbody := henter.comp
      (survives_resolveBody body context _ (position + params.length) fresh.2)
      (precedes_resolveBody body context)
    -- The body declares its variables in the scope of the parameters, the one that is left.
    obtain ⟨holding, hparams⟩ := exists_declareParameters params position .nothing around
    obtain ⟨holding', hleft⟩ :=
      exists_behindBody body (position + params.length) holding around
    rw [hparams, hleft] at hbody
    have hall := hbody.comp (survives_leave holding') precedes_leave
    rwa [← hparams] at hall

theorem survives_resolveMethods : ∀ (methods : List NamedFunction) (body : ClassContext)
    (around : List Holding) (position : Nat), ρ.new ∉ namesInMethods methods →
    Survives ρ around around (resolveMethods body methods)
      (resolveMethods body (renameMethods ρ around position methods))
  | [], _, around, _, _ => survives_id around
  | .mk name function :: rest, body, around, position, fresh => by
    rw [namesInMethods, NamedFunction.names, List.mem_append, List.mem_cons, not_or, not_or]
      at fresh
    exact (survives_resolveFunction function _ around _ fresh.1.2).comp
      (survives_resolveMethods rest body around _ fresh.2) (precedes_resolveMethods rest body)

theorem survives_resolveClassMethods : ∀ (methods : List NamedFunction) (body : ClassContext)
    (around : List Holding) (position : Nat), ρ.new ∉ namesInMethods methods →
    Survives ρ around around (resolveClassMethods body methods)
      (resolveClassMethods body (renameMethods ρ around position methods))
  | [], _, around, _, _ => survives_id around
  | .mk name function :: rest, body, around, position, fresh => by
    rw [namesInMethods, NamedFunction.names, List.mem_append, List.mem_cons, not_or, not_or]
      at fresh
    exact (survives_resolveFunction function _ around _ fresh.1.2).comp
      (survives_resolveClassMethods rest body around _ fresh.2)
      (precedes_resolveClassMethods rest body)

theorem survives_resolveStmt : ∀ (s : Stmt) (context : Context) (around : List Holding)
    (position : Nat), ρ.new ∉ s.names →
    Survives ρ around (s.behind ρ position around) (resolveStmt context s)
      (resolveStmt context (s.rename ρ around position))
  | .expression value, context, around, position, fresh =>
    survives_resolveExpr value context around position fresh
  | .print value, context, around, position, fresh =>
    survives_resolveExpr value context around position fresh
  | .varDecl name none, _, _, _, fresh =>
    survives_declareName _ (by simpa [Stmt.names, eq_comm] using fresh)
  | .varDecl name (some initial), context, around, position, fresh => by
    rw [Stmt.names, List.mem_cons, not_or] at fresh
    have other := Ne.symm fresh.1
    exact ((survives_declare _ other).comp (survives_resolveExpr initial context _ _ fresh.2)
      (precedes_resolveExpr initial context)).comp (survives_update other _)
      fun a => precedes_define a name
  | .block body, context, around, position, fresh => by
    have hbody := survives_enter.comp
      (survives_resolveBody body context (.nothing :: around) position fresh)
      (precedes_resolveBody body context)
    obtain ⟨holding, hleft⟩ := exists_behindBody body position .nothing around
    rw [hleft] at hbody
    exact hbody.comp (survives_leave holding) precedes_leave
  | .ifThen condition thenBranch none, context, around, position, fresh => by
    rw [Stmt.names, List.mem_append, not_or] at fresh
    exact (survives_resolveExpr condition context around position fresh.1).comp
      (survives_resolveStmt thenBranch context around _ fresh.2)
      (precedes_resolveStmt thenBranch context)
  | .ifThen condition thenBranch (some elseBranch), context, around, position, fresh => by
    rw [Stmt.names, List.mem_append, List.mem_append, not_or, not_or] at fresh
    exact ((survives_resolveExpr condition context around position fresh.1.1).comp
      (survives_resolveStmt thenBranch context around _ fresh.1.2)
      (precedes_resolveStmt thenBranch context)).comp
      (survives_resolveStmt elseBranch context _ _ fresh.2)
      (precedes_resolveStmt elseBranch context)
  | .whileDo condition body, context, around, position, fresh => by
    rw [Stmt.names, List.mem_append, not_or] at fresh
    exact (survives_resolveExpr condition context around position fresh.1).comp
      (survives_resolveStmt body context around _ fresh.2) (precedes_resolveStmt body context)
  | .breakLoop _, _, around, _, _ => survives_id around
  | .returnWith line none, context, _, _, _ => survives_checkReturn context.function line
  | .returnWith line (some value), context, around, position, fresh =>
    ((survives_checkReturn context.function line).comp
      (survives_checkReturnValue context.function line)
      fun a => precedes_noteIf a _ _ _).comp
      (survives_resolveExpr value context around position fresh)
      (precedes_resolveExpr value context)
  | .funDecl (.mk name function), _, around, position, fresh => by
    rw [Stmt.names, NamedFunction.names, List.mem_cons, not_or] at fresh
    exact (survives_declareOther (Ne.symm fresh.1)).comp
      (survives_resolveFunction function _ _ _ fresh.2) (precedes_resolveFunction function _)
  | .classDecl name superclass traits methods classMethods, _, around, position, fresh => by
    simp only [Stmt.names, List.mem_append, List.mem_cons, not_or] at fresh
    obtain ⟨⟨⟨⟨other, hsuperclass⟩, htraits⟩, hmethods⟩, hclassMethods⟩ := fresh
    have hsame : (superclass.map (Reference.rename ρ (ρ.declare false name.text around))).isSome =
        superclass.isSome := Option.isSome_map
    have hcontext : classContext
        (superclass.map (Reference.rename ρ (ρ.declare false name.text around))) =
          classContext superclass := by simp [classContext]
    let ofMethods := holdingsOfMethods ρ name superclass.isSome around
    let first := position + 1 + superclass.toList.length + traits.length
    have hhead : Survives ρ around (ρ.declare false name.text around) _ _ :=
      survives_resolveClassHead (Ne.symm other) hsuperclass htraits
        (names_renameMethods ρ methods ofMethods first)
    have hbegin := hhead.comp (survives_enterClass name superclass _ hsame)
      (precedes_enterClass name superclass)
    have hmethods := hbegin.comp
      (survives_resolveMethods methods (classContext superclass) _ first hmethods)
      (precedes_resolveMethods methods _)
    have hclass := hmethods.comp
      (survives_resolveClassMethods classMethods (classContext superclass) _
        (first + (namesInMethods methods).length) hclassMethods)
      (precedes_resolveClassMethods classMethods _)
    have hall := hclass.comp (survives_leaveClass name superclass _ hsame)
      (precedes_leaveClass superclass)
    intro a a' h clean
    simp only [Stmt.rename, resolveStmt, hcontext]
    exact hall a a' h clean
  | .traitDecl name traits methods, _, around, position, fresh => by
    simp only [Stmt.names, List.mem_append, List.mem_cons, not_or] at fresh
    obtain ⟨⟨other, htraits⟩, hmethods⟩ := fresh
    let ofMethods := holdingsOfMethods ρ name false around
    let first := position + 1 + traits.length
    have henter : Survives ρ (ρ.declare false name.text around) ofMethods
        (fun a => a.enter.bindImplicit thisName name.line)
        fun a => a.enter.bindImplicit thisName name.line := survives_enterClass name none none rfl
    have hhead : Survives ρ around (ρ.declare false name.text around) _ _ :=
      survives_resolveTraitHead (Ne.symm other) htraits
        (names_renameMethods ρ methods ofMethods first)
    have hbegin := hhead.comp henter fun a => precedes_bindImplicit a.enter _ _
    have hmethods := hbegin.comp (survives_resolveMethods methods .traitBody _ first hmethods)
      (precedes_resolveMethods methods _)
    exact hmethods.comp (survives_leaveClass name none none rfl) (precedes_leaveClass none)

theorem survives_resolveBody : ∀ (body : List Stmt) (context : Context) (around : List Holding)
    (position : Nat), ρ.new ∉ namesInBody body →
    Survives ρ around (behindBody ρ position body around) (resolveBody context body)
      (resolveBody context (renameBody ρ around position body))
  | [], _, around, _, _ => survives_id around
  | statement :: rest, context, around, position, fresh => by
    rw [namesInBody, List.mem_append, not_or] at fresh
    exact (survives_resolveStmt statement context around position fresh.1).comp
      (survives_resolveBody rest context _ _ fresh.2) (precedes_resolveBody rest context)

end

/-- A program that is accepted is accepted with another name for a variable, if that name does not
occur in it, and has the same table. -/
theorem resolve_rename {program : List Stmt} {table : Bindings}
    (accepted : resolve program = .ok table) (fresh : ρ.new ∉ namesInBody program) :
    resolve (renameBody ρ [] 0 program) = .ok table := by
  unfold resolve resolveWith at accepted ⊢
  have hstart : Renamed ρ [] Analysis.start.restart Analysis.start.restart :=
    ⟨.nil, rfl, rfl, rfl⟩
  have hwalk := survives_resolveBody program ⟨.outside, .outside⟩ [] 0 fresh _ _ hstart
  cases hproblems :
    (resolveBody ⟨.outside, .outside⟩ program Analysis.start.restart).problems with
  | nil =>
    simp only [hproblems, Except.ok.injEq] at accepted
    obtain ⟨-, -, hbindings, hproblems'⟩ := hwalk hproblems
    simp only [hproblems', hbindings, accepted]
  | cons problem rest => simp [hproblems] at accepted

end

end Scoping

end LoxLang
