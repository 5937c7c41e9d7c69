import LoxLang.Proofs.Scoping.Names

/-!
# What is known of traits outside of a scope

A walk through an expression or a function leaves what is known of the traits around it as it is:
declarations change the innermost scope only, and a function has a scope of its own, which is gone
behind it. So a trait is known behind its declaration with the names that the check of its
composition found.
-/

namespace LoxLang

namespace Scoping

open Analysis

/-- What a scope knows of traits: the names that it has, and the traits among them. -/
def Scope.facts (s : Scope) : List String × KnownTraits :=
  (s.names, s.traits)

/-- What all scopes know of traits, innermost first. -/
def Analysis.facts (a : Analysis) : List (List String × KnownTraits) :=
  a.scopes.map Scope.facts

/-- Nothing that is known of traits has changed. -/
def Undisturbed (a a' : Analysis) : Prop :=
  a'.facts = a.facts ∧ a'.globalTraits = a.globalTraits

/-- A walk is in a scope, outside of which certain things are known of traits. -/
def Inside (outer : List (List String × KnownTraits)) (globals : KnownTraits) (a : Analysis) :
    Prop :=
  (∃ inner, a.facts = inner :: outer) ∧ a.globalTraits = globals

/-- What a name denotes among traits depends on what the scopes know. -/
theorem knownTrait?_congr (name : String) (globals : KnownTraits) {scopes scopes' : List Scope}
    (h : scopes.map Scope.facts = scopes'.map Scope.facts) :
    knownTrait? name globals scopes = knownTrait? name globals scopes' := by
  induction scopes generalizing scopes' with
  | nil =>
    have hnil : scopes' = [] := by simpa using h.symm
    rw [hnil]
  | cons scope outer ih =>
    cases scopes' with
    | nil => simp at h
    | cons scope' outer' =>
      simp only [List.map_cons, List.cons.injEq, Scope.facts, Prod.mk.injEq] at h
      obtain ⟨⟨hnames, htraits⟩, houter⟩ := h
      have hdeclares : scope.declares name = scope'.declares name := by
        rw [Bool.eq_iff_iff, Scope.declares_iff, Scope.declares_iff, hnames]
      unfold knownTrait?
      rw [hdeclares, htraits, ih houter]

theorem Undisturbed.known {a a' : Analysis} (h : Undisturbed a a') (name : String) :
    knownTrait? name a'.globalTraits a'.scopes = knownTrait? name a.globalTraits a.scopes := by
  rw [h.2]
  exact knownTrait?_congr name a.globalTraits h.1

theorem Undisturbed.names {a a' : Analysis} (h : Undisturbed a a') : a'.names = a.names := by
  have hnames := congrArg (List.map Prod.fst) h.1
  simpa [Analysis.names, facts, Function.comp_def, Scope.facts] using hnames

theorem Undisturbed.refl (a : Analysis) : Undisturbed a a :=
  ⟨rfl, rfl⟩

theorem Undisturbed.trans {a b c : Analysis} (h : Undisturbed a b) (h' : Undisturbed b c) :
    Undisturbed a c :=
  ⟨h'.1.trans h.1, h'.2.trans h.2⟩

theorem Undisturbed.inside {a a' : Analysis} (h : Undisturbed a a')
    {outer : List (List String × KnownTraits)} {globals : KnownTraits}
    (inside : Inside outer globals a) : Inside outer globals a' := by
  obtain ⟨⟨inner, hfacts⟩, hglobals⟩ := inside
  exact ⟨⟨inner, h.1.trans hfacts⟩, h.2.trans hglobals⟩

/-! ## Operations -/

theorem undisturbed_onlyNotes {a a' : Analysis} (h : OnlyNotes a a') : Undisturbed a a' := by
  obtain ⟨more, rfl⟩ := h
  exact .refl a

theorem undisturbed_noteIf (a : Analysis) (condition : Bool) (word : Name) (cause : Cause) :
    Undisturbed a (a.noteIf condition word cause) :=
  undisturbed_onlyNotes (onlyNotes_noteIf a condition word cause)

theorem Scope.facts_update (s : Scope) (name : String) (change : Progress → Progress) :
    (s.update name change).facts = s.facts :=
  congrArg (·, s.traits) (s.names_update name change)

theorem undisturbed_update (a : Analysis) (name : String) (change : Progress → Progress) :
    Undisturbed a (a.changeInnermost (·.update name change)) := by
  unfold changeInnermost
  split
  · exact .refl a
  · next h => exact ⟨by simp [facts, h, Scope.facts_update], rfl⟩

theorem undisturbed_bind (a : Analysis) (id : RefId) (name : String) :
    Undisturbed a (a.bind id name) := by
  unfold Analysis.bind
  split <;> exact .refl a

theorem facts_markRead (name : String) (scopes : List Scope) :
    (markRead name scopes).map Scope.facts = scopes.map Scope.facts := by
  induction scopes with
  | nil => rfl
  | cons scope outer ih =>
    unfold markRead
    split
    · simp [Scope.facts_update]
    · simp [ih]

theorem undisturbed_bindRead (a : Analysis) (id : RefId) (name : String) :
    Undisturbed a (a.bindRead id name) :=
  (undisturbed_bind a id name).trans ⟨facts_markRead name (a.bind id name).scopes, rfl⟩

theorem undisturbed_resolveReference (ref : Reference) (a : Analysis) :
    Undisturbed a (resolveReference ref a) :=
  (undisturbed_noteIf a _ _ _).trans (undisturbed_bindRead _ _ _)

theorem undisturbed_resolveReferences (refs : List Reference) (a : Analysis) :
    Undisturbed a (resolveReferences refs a) := by
  induction refs generalizing a with
  | nil => exact .refl a
  | cons ref rest ih => exact (undisturbed_resolveReference ref a).trans (ih _)

theorem undisturbed_resolveThis (body : ClassContext) (id : RefId) (line : Nat) (a : Analysis) :
    Undisturbed a (resolveThis body id line a) := by
  cases body with
  | outside => exact .refl a
  | plain | derived | traitBody => exact undisturbed_bindRead a id thisName

theorem undisturbed_resolveSuper (body : ClassContext) (id : RefId) (line : Nat)
    (a : Analysis) : Undisturbed a (resolveSuper body id line a) := by
  cases body with
  | outside | traitBody | plain => exact .refl a
  | derived => exact undisturbed_bindRead a id superName

section

variable {outer : List (List String × KnownTraits)} {globals : KnownTraits} {a : Analysis}

theorem inside_enter (a : Analysis) : Inside a.facts a.globalTraits a.enter :=
  ⟨⟨_, rfl⟩, rfl⟩

/-- A change of the innermost scope. -/
theorem Inside.changeInnermost (h : Inside outer globals a) (change : Scope → Scope) :
    Inside outer globals (a.changeInnermost change) := by
  obtain ⟨⟨inner, hfacts⟩, hglobals⟩ := h
  unfold Analysis.changeInnermost
  split
  · exact ⟨⟨inner, hfacts⟩, hglobals⟩
  · next scope further hscopes =>
    simp only [facts, hscopes, List.map_cons, List.cons.injEq] at hfacts
    exact ⟨⟨(change scope).facts, congrArg _ hfacts.2⟩, hglobals⟩

theorem Inside.changeTraits (h : Inside outer globals a) (change : KnownTraits → KnownTraits) :
    Inside outer globals (a.changeTraits change) := by
  obtain ⟨⟨inner, hfacts⟩, hglobals⟩ := h
  unfold Analysis.changeTraits
  split
  · next hscopes => simp [facts, hscopes] at hfacts
  · next scope further hscopes =>
    simp only [facts, hscopes, List.map_cons, List.cons.injEq] at hfacts
    exact ⟨⟨_, congrArg _ hfacts.2⟩, hglobals⟩

theorem Inside.declare (h : Inside outer globals a) (name : Name) :
    Inside outer globals (a.declare name) := by
  have hchanged := h.changeTraits (·.erase name.text)
  unfold Analysis.declare
  simp only
  split
  · exact hchanged
  · split
    · exact hchanged
    · exact hchanged.changeInnermost _

theorem Inside.declareName (h : Inside outer globals a) (name : Name) :
    Inside outer globals ((a.declare name).define name) :=
  (h.declare name).changeInnermost _

theorem Inside.declareParameters (params : List Name) (h : Inside outer globals a) :
    Inside outer globals (params.foldl declareParameter a) := by
  induction params generalizing a with
  | nil => exact h
  | cons param rest ih => exact ih ((h.declare param).changeInnermost _)

theorem Inside.leave (h : Inside outer globals a) :
    a.leave.facts = outer ∧ a.leave.globalTraits = globals := by
  obtain ⟨⟨inner, hfacts⟩, hglobals⟩ := h
  unfold Analysis.leave
  split
  · next hscopes => simp [facts, hscopes] at hfacts
  · next scope further hscopes =>
    simp only [facts, hscopes, List.map_cons, List.cons.injEq] at hfacts
    exact ⟨hfacts.2, hglobals⟩

end

/-- A part of the walk in scopes of its own. -/
theorem undisturbed_scope (step : Analysis → Analysis) (a : Analysis)
    (h : Inside a.facts a.globalTraits (step a.enter)) : Undisturbed a (step a.enter).leave :=
  h.leave

theorem undisturbed_resolveClassHead (superclass : Option Reference)
    (traits : List Reference) (name : Name) (methods : List NamedFunction) (a : Analysis) :
    Undisturbed ((a.declare name).define name)
      (resolveClassHead name superclass traits methods a) := by
  have htraits : ∀ b,
      Undisturbed b (checkComposition traits methods (resolveReferences traits b)).2 := fun b =>
     (undisturbed_resolveReferences traits b).trans
      (undisturbed_onlyNotes (onlyNotes_checkComposition traits methods _))
  cases superclass with
  | none => exact htraits _
  | some ref =>
    exact ((undisturbed_noteIf _ _ _ _).trans (undisturbed_resolveReference ref _)).trans
      (htraits _)

/-! ## The walk -/

mutual

theorem undisturbed_resolveExpr : ∀ (e : Expr) (context : Context) (a : Analysis),
    Undisturbed a (resolveExpr context e a)
  | .literal _, _, a => .refl a
  | .unary _ _ operand, context, a => undisturbed_resolveExpr operand context a
  | .binary left _ _ right, context, a =>
    (undisturbed_resolveExpr left context a).trans (undisturbed_resolveExpr right context _)
  | .logical left _ _ right, context, a =>
    (undisturbed_resolveExpr left context a).trans (undisturbed_resolveExpr right context _)
  | .conditional condition thenBranch elseBranch, context, a =>
    ((undisturbed_resolveExpr condition context a).trans
      (undisturbed_resolveExpr thenBranch context _)).trans
      (undisturbed_resolveExpr elseBranch context _)
  | .grouping inner, context, a => undisturbed_resolveExpr inner context a
  | .variable ref, _, a => undisturbed_resolveReference ref a
  | .assign _ value, context, a =>
    (undisturbed_resolveExpr value context a).trans (undisturbed_bind _ _ _)
  | .call callee arguments _, context, a =>
    (undisturbed_resolveExpr callee context a).trans
      (undisturbed_resolveArguments arguments context _)
  | .get object _, context, a => undisturbed_resolveExpr object context a
  | .set object _ value, context, a =>
    (undisturbed_resolveExpr value context a).trans (undisturbed_resolveExpr object context _)
  | .this id line, context, a => undisturbed_resolveThis context.body id line a
  | .super id line _, context, a => undisturbed_resolveSuper context.body id line a
  | .lambda _ function, _, a => undisturbed_resolveFunction function _ a

theorem undisturbed_resolveArguments : ∀ (arguments : List Expr) (context : Context)
    (a : Analysis), Undisturbed a (resolveArguments context arguments a)
  | [], _, a => .refl a
  | argument :: rest, context, a =>
    (undisturbed_resolveExpr argument context a).trans
      (undisturbed_resolveArguments rest context _)

theorem undisturbed_resolveFunction : ∀ (f : Function) (context : Context) (a : Analysis),
    Undisturbed a (resolveFunction context f a)
  | .mk params body, context, a =>
    undisturbed_scope (fun a => resolveBody context body (params.foldl declareParameter a)) a
      (inside_resolveBody body context ((inside_enter a).declareParameters params))

theorem undisturbed_resolveMethods : ∀ (methods : List NamedFunction) (body : ClassContext)
    (a : Analysis), Undisturbed a (resolveMethods body methods a)
  | [], _, a => .refl a
  | .mk _ function :: rest, body, a =>
    (undisturbed_resolveFunction function _ a).trans (undisturbed_resolveMethods rest body _)

theorem undisturbed_resolveClassMethods : ∀ (methods : List NamedFunction)
    (body : ClassContext) (a : Analysis), Undisturbed a (resolveClassMethods body methods a)
  | [], _, a => .refl a
  | .mk _ function :: rest, body, a =>
    (undisturbed_resolveFunction function _ a).trans
      (undisturbed_resolveClassMethods rest body _)

theorem inside_resolveStmt {outer : List (List String × KnownTraits)} {globals : KnownTraits} :
    ∀ (s : Stmt) (context : Context) {a : Analysis}, Inside outer globals a →
      Inside outer globals (resolveStmt context s a)
  | .expression value, context, a, h => (undisturbed_resolveExpr value context a).inside h
  | .print value, context, a, h => (undisturbed_resolveExpr value context a).inside h
  | .varDecl name none, _, _, h => h.declareName name
  | .varDecl name (some initial), context, _, h =>
    ((undisturbed_resolveExpr initial context _).inside (h.declare name)).changeInnermost _
  | .block body, context, a, h =>
    (undisturbed_scope (resolveBody context body) a
      (inside_resolveBody body context (inside_enter a))).inside h
  | .ifThen condition thenBranch none, context, a, h =>
    inside_resolveStmt thenBranch context
      ((undisturbed_resolveExpr condition context a).inside h)
  | .ifThen condition thenBranch (some elseBranch), context, a, h =>
    inside_resolveStmt elseBranch context (inside_resolveStmt thenBranch context
      ((undisturbed_resolveExpr condition context a).inside h))
  | .whileDo condition body, context, a, h =>
    inside_resolveStmt body context ((undisturbed_resolveExpr condition context a).inside h)
  | .breakLoop _, _, _, h => h
  | .returnWith _ none, _, a, h => (undisturbed_noteIf a _ _ _).inside h
  | .returnWith _ (some value), context, a, h =>
    ((undisturbed_noteIf a _ _ _).trans ((undisturbed_noteIf _ _ _ _).trans
      (undisturbed_resolveExpr value context _))).inside h
  | .funDecl (.mk name function), _, _, h =>
    (undisturbed_resolveFunction function _ _).inside (h.declareName name)
  | .classDecl name superclass traits methods classMethods, _, a, h => by
    have hhead := (undisturbed_resolveClassHead superclass traits name methods a).inside
      (h.declareName name)
    have hmethods : ∀ b, Undisturbed b (resolveClassMethods (classContext superclass) classMethods
        (resolveMethods (classContext superclass) methods b)) :=
      fun b => (undisturbed_resolveMethods methods _ b).trans
        (undisturbed_resolveClassMethods classMethods _ _)
    have hreceiver : ∀ b : Analysis, Undisturbed b (resolveClassMethods (classContext superclass)
        classMethods (resolveMethods (classContext superclass) methods
          (b.enter.bindImplicit thisName name.line))).leave := by
      intro b
      exact ((hmethods _).inside ((inside_enter b).changeInnermost _)).leave
    cases superclass with
    | none => exact (hreceiver _).inside hhead
    | some ref =>
      have hsuper := (hreceiver _).inside ((inside_enter (resolveClassHead name (some ref) traits
        methods a)).changeInnermost (·.push ⟨⟨superName, name.line⟩, .read⟩))
      exact Undisturbed.inside hsuper.leave hhead
  | .traitDecl name traits methods, _, a, h => by
    have hhead : Inside outer globals (resolveTraitHead name traits methods a) := by
      unfold resolveTraitHead
      exact ((undisturbed_onlyNotes (onlyNotes_checkComposition traits methods _)).inside
        ((undisturbed_resolveReferences traits _).inside (h.declareName name))).changeTraits _
    have hmethods := (undisturbed_resolveMethods methods .traitBody _).inside
      ((inside_enter (resolveTraitHead name traits methods a)).changeInnermost
        (·.push ⟨⟨thisName, name.line⟩, .read⟩))
    exact Undisturbed.inside hmethods.leave hhead

theorem inside_resolveBody {outer : List (List String × KnownTraits)} {globals : KnownTraits} :
    ∀ (body : List Stmt) (context : Context) {a : Analysis}, Inside outer globals a →
      Inside outer globals (resolveBody context body a)
  | [], _, _, h => h
  | statement :: rest, context, _, h =>
    inside_resolveBody rest context (inside_resolveStmt statement context h)

end

/-! ## Declared traits -/

/-- The analysis in which the traits that a declared trait uses are checked. -/
def atTraits (name : Name) (traits : List Reference) (a : Analysis) : Analysis :=
  resolveReferences traits ((a.declare name).define name)

theorem undisturbed_traitDecl (context : Context) (name : Name) (traits : List Reference)
    (methods : List NamedFunction) (a : Analysis) :
    Undisturbed (resolveTraitHead name traits methods a)
      (resolveStmt context (.traitDecl name traits methods) a) := by
  have hmethods := (undisturbed_resolveMethods methods .traitBody _).inside
    ((inside_enter (resolveTraitHead name traits methods a)).changeInnermost
      (·.push ⟨⟨thisName, name.line⟩, .read⟩))
  exact hmethods.leave

/-- A name that has been declared is one of the innermost scope. -/
theorem mem_names_declare {a : Analysis} {name : Name} {names : List String}
    {outer : List (List String)} (h : (a.declare name).names = names :: outer) :
    name.text ∈ names := by
  revert h
  unfold declare
  simp only
  split
  · next hscopes =>
    intro h
    simp [Analysis.names, hscopes] at h
  · next scope further hscopes =>
    split
    · next hdeclares =>
      intro h
      rw [names_note] at h
      simp only [Analysis.names, hscopes, List.map_cons, List.cons.injEq] at h
      exact h.1 ▸ Scope.declares_iff.mp hdeclares
    · intro h
      simp only [Analysis.names, changeInnermost, hscopes, List.map_cons, List.cons.injEq,
        Scope.names_push] at h
      simp [← h.1]

/-- What is entered for a declared name is known of it. -/
theorem known_insert {a : Analysis} {name : String} (provided : List String)
    (declared : ∀ names outer, a.names = names :: outer → name ∈ names) :
    knownTrait? name (a.changeTraits (·.insert name provided)).globalTraits
      (a.changeTraits (·.insert name provided)).scopes = some provided := by
  obtain ⟨scopes, globals, bindings, problems⟩ := a
  cases scopes with
  | nil => simp [changeTraits, knownTrait?, Dictionary.get?_insert]
  | cons scope outer =>
    have hdeclares : Scope.declares { scope with traits := scope.traits.insert name provided }
        name = true :=
      Scope.declares_iff.mpr (declared scope.names _ rfl)
    simp only [changeTraits, knownTrait?, hdeclares, if_true, Dictionary.get?_insert]

/-- Behind the declaration of a trait its name is known, with the names of methods that the check
of its composition found. -/
theorem known_traitDecl (context : Context) (name : Name) (traits : List Reference)
    (methods : List NamedFunction) (a : Analysis) :
    knownTrait? name.text (resolveStmt context (.traitDecl name traits methods) a).globalTraits
        (resolveStmt context (.traitDecl name traits methods) a).scopes =
      some (checkComposition traits methods (atTraits name traits a)).1 := by
  rw [(undisturbed_traitDecl context name traits methods a).known]
  have hchecked : Undisturbed ((a.declare name).define name)
      (checkComposition traits methods (atTraits name traits a)).2 :=
    (undisturbed_resolveReferences traits _).trans
      (undisturbed_onlyNotes (onlyNotes_checkComposition traits methods _))
  have hnames := hchecked.names.trans (names_define (a.declare name) name)
  exact known_insert _ fun names outer h => mem_names_declare (hnames.symm.trans h)

/-- What is known of other names does not depend on what is entered for one. -/
theorem known_changeTraits_other {other : String} (change : KnownTraits → KnownTraits)
    (same : ∀ traits : KnownTraits, (change traits).get? other = traits.get? other)
    (a : Analysis) :
    knownTrait? other (a.changeTraits change).globalTraits (a.changeTraits change).scopes =
      knownTrait? other a.globalTraits a.scopes := by
  obtain ⟨scopes, globals, bindings, problems⟩ := a
  cases scopes with
  | nil => exact same globals
  | cons scope outer =>
    have hdeclares : Scope.declares { scope with traits := change scope.traits } other =
        scope.declares other := rfl
    simp only [changeTraits, knownTrait?, hdeclares, same]

/-- A declaration leaves what is known of other names. -/
theorem known_declare_other {name : Name} {other : String} (hne : other ≠ name.text)
    (a : Analysis) :
    knownTrait? other (a.declare name).globalTraits (a.declare name).scopes =
      knownTrait? other a.globalTraits a.scopes := by
  have herased := known_changeTraits_other (·.erase name.text)
    (fun traits => by rw [Dictionary.get?_erase, if_neg hne.symm]) a
  rw [← herased]
  unfold declare
  simp only
  generalize a.changeTraits (·.erase name.text) = b
  obtain ⟨scopes, globals, bindings, problems⟩ := b
  cases scopes with
  | nil => rfl
  | cons scope outer =>
    simp only
    split
    · rfl
    · have hdeclares : (scope.push ⟨name, .declared⟩).declares other = scope.declares other := by
        rw [Bool.eq_iff_iff, Scope.declares_iff, Scope.declares_iff, Scope.names_push]
        simp [hne]
      have htraits : (scope.push ⟨name, .declared⟩).traits = scope.traits := rfl
      simp only [changeInnermost, knownTrait?, hdeclares, htraits]

/-- The declaration of a trait leaves what is known of other names. -/
theorem known_traitDecl_other (context : Context) {name : Name} {other : String}
    (hne : other ≠ name.text) (traits : List Reference) (methods : List NamedFunction)
    (a : Analysis) :
    knownTrait? other (resolveStmt context (.traitDecl name traits methods) a).globalTraits
        (resolveStmt context (.traitDecl name traits methods) a).scopes =
      knownTrait? other a.globalTraits a.scopes := by
  rw [(undisturbed_traitDecl context name traits methods a).known]
  have hchecked : Undisturbed (a.declare name)
      (checkComposition traits methods (atTraits name traits a)).2 :=
    (undisturbed_update (a.declare name) name.text Progress.define).trans
      ((undisturbed_resolveReferences traits _).trans
        (undisturbed_onlyNotes (onlyNotes_checkComposition traits methods _)))
  rw [← known_declare_other hne a, ← hchecked.known other]
  exact known_changeTraits_other _
    (fun traits => by rw [Dictionary.get?_insert, if_neg hne.symm]) _

end Scoping

end LoxLang
