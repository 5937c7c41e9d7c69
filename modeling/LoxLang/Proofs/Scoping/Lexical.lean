import LoxLang.Proofs.Scoping.Names
import LoxLang.Proofs.Scoping.Site

/-!
# Resolution is lexical scoping

For a program without misuses, the table that resolution makes agrees with the text: at each
site the binding of what is looked up there is the one that `Position.lookup?` says. The walk
keeps the names of its scopes equal to those begun at the position it has come to (`Agrees`),
and what it writes for one part of a tree is not touched by the parts that follow, since no two
occurrences share an identity (`Walked.append`).
-/

namespace LoxLang

namespace Scoping

open Analysis

/-! ## Problems stay -/

theorem precedes_resolveReference (ref : Reference) (a : Analysis) :
    a.Precedes (resolveReference ref a) :=
  (precedes_noteIf a _ _ _).trans (precedes_bindRead _ _ _)

theorem precedes_resolveReferences (refs : List Reference) (a : Analysis) :
    a.Precedes (resolveReferences refs a) := by
  induction refs generalizing a with
  | nil => exact .refl a
  | cons ref rest ih => exact (precedes_resolveReference ref a).trans (ih _)

theorem precedes_resolveThis (body : ClassContext) (id : RefId) (line : Nat) (a : Analysis) :
    a.Precedes (resolveThis body id line a) := by
  cases body with
  | outside => exact precedes_note a _ _
  | plain | derived | traitBody => exact precedes_bindRead a id thisName

theorem precedes_resolveSuper (body : ClassContext) (id : RefId) (line : Nat) (a : Analysis) :
    a.Precedes (resolveSuper body id line a) := by
  cases body with
  | outside | traitBody | plain => exact precedes_note a _ _
  | derived => exact precedes_bindRead a id superName

theorem precedes_declareParameters (params : List Name) (a : Analysis) :
    a.Precedes (params.foldl declareParameter a) := by
  induction params generalizing a with
  | nil => exact .refl a
  | cons param rest ih => exact (precedes_declareParameter a param).trans (ih _)

theorem precedes_declareName (name : Name) (a : Analysis) :
    a.Precedes ((a.declare name).define name) :=
  (precedes_declare a name).trans (precedes_define _ name)

theorem precedes_resolveClassHead (name : Name) (superclass : Option Reference)
    (traits : List Reference) (methods : List NamedFunction) (a : Analysis) :
    a.Precedes (resolveClassHead name superclass traits methods a) := by
  unfold resolveClassHead
  simp only
  refine (precedes_declareName name a).trans ?_
  refine Precedes.trans ?_ (onlyNotes_checkComposition traits methods _).precedes
  refine Precedes.trans ?_ (precedes_resolveReferences traits _)
  cases superclass with
  | none => exact .refl _
  | some ref => exact (precedes_noteIf _ _ _ _).trans (precedes_resolveReference ref _)

theorem precedes_enterClass (name : Name) (superclass : Option Reference) (a : Analysis) :
    a.Precedes (enterClass name superclass a) := by
  unfold enterClass
  cases superclass with
  | none => exact precedes_bindImplicit a.enter _ _
  | some ref =>
    exact (precedes_bindImplicit a.enter superName name.line).trans
      (precedes_bindImplicit (enter _) thisName name.line)

theorem precedes_leaveClass (superclass : Option Reference) (a : Analysis) :
    a.Precedes (leaveClass superclass a) := by
  unfold leaveClass
  cases superclass with
  | none => exact precedes_leave a
  | some ref => exact (precedes_leave a).trans (precedes_leave _)

theorem precedes_resolveTraitHead (name : Name) (traits : List Reference)
    (methods : List NamedFunction) (a : Analysis) :
    a.Precedes (resolveTraitHead name traits methods a) := by
  unfold resolveTraitHead
  simp only
  refine (precedes_declareName name a).trans ?_
  refine (precedes_resolveReferences traits _).trans ?_
  refine (onlyNotes_checkComposition traits methods _).precedes.trans ?_
  exact .of_eq (problems_changeTraits _ _)

mutual

theorem precedes_resolveExpr : ∀ (e : Expr) (context : Context) (a : Analysis),
    a.Precedes (resolveExpr context e a)
  | .literal _, _, a => .refl a
  | .unary _ _ operand, context, a => precedes_resolveExpr operand context a
  | .binary left _ _ right, context, a =>
    (precedes_resolveExpr left context a).trans (precedes_resolveExpr right context _)
  | .logical left _ _ right, context, a =>
    (precedes_resolveExpr left context a).trans (precedes_resolveExpr right context _)
  | .conditional condition thenBranch elseBranch, context, a =>
    ((precedes_resolveExpr condition context a).trans
      (precedes_resolveExpr thenBranch context _)).trans
      (precedes_resolveExpr elseBranch context _)
  | .grouping inner, context, a => precedes_resolveExpr inner context a
  | .variable ref, _, a => precedes_resolveReference ref a
  | .assign _ value, context, a =>
    (precedes_resolveExpr value context a).trans (precedes_bind _ _ _)
  | .call callee arguments _, context, a =>
    (precedes_resolveExpr callee context a).trans (precedes_resolveArguments arguments context _)
  | .get object _, context, a => precedes_resolveExpr object context a
  | .set object _ value, context, a =>
    (precedes_resolveExpr value context a).trans (precedes_resolveExpr object context _)
  | .this id line, context, a => precedes_resolveThis context.body id line a
  | .super id line _, context, a => precedes_resolveSuper context.body id line a
  | .lambda _ function, _, a => precedes_resolveFunction function _ a

theorem precedes_resolveArguments : ∀ (arguments : List Expr) (context : Context)
    (a : Analysis), a.Precedes (resolveArguments context arguments a)
  | [], _, a => .refl a
  | argument :: rest, context, a =>
    (precedes_resolveExpr argument context a).trans (precedes_resolveArguments rest context _)

theorem precedes_resolveFunction : ∀ (f : Function) (context : Context) (a : Analysis),
    a.Precedes (resolveFunction context f a)
  | .mk params body, context, a =>
    ((precedes_declareParameters params a.enter).trans
      (precedes_resolveBody body context _)).trans (precedes_leave _)

theorem precedes_resolveMethods : ∀ (methods : List NamedFunction) (body : ClassContext)
    (a : Analysis), a.Precedes (resolveMethods body methods a)
  | [], _, a => .refl a
  | .mk _ function :: rest, body, a =>
    (precedes_resolveFunction function _ a).trans (precedes_resolveMethods rest body _)

theorem precedes_resolveClassMethods : ∀ (methods : List NamedFunction) (body : ClassContext)
    (a : Analysis), a.Precedes (resolveClassMethods body methods a)
  | [], _, a => .refl a
  | .mk _ function :: rest, body, a =>
    (precedes_resolveFunction function _ a).trans (precedes_resolveClassMethods rest body _)

theorem precedes_resolveStmt : ∀ (s : Stmt) (context : Context) (a : Analysis),
    a.Precedes (resolveStmt context s a)
  | .expression value, context, a => precedes_resolveExpr value context a
  | .print value, context, a => precedes_resolveExpr value context a
  | .varDecl name none, _, a => precedes_declareName name a
  | .varDecl name (some initial), context, a =>
    ((precedes_declare a name).trans (precedes_resolveExpr initial context _)).trans
      (precedes_define _ name)
  | .block body, context, a =>
    (precedes_resolveBody body context a.enter).trans (precedes_leave _)
  | .ifThen condition thenBranch none, context, a =>
    (precedes_resolveExpr condition context a).trans (precedes_resolveStmt thenBranch context _)
  | .ifThen condition thenBranch (some elseBranch), context, a =>
    ((precedes_resolveExpr condition context a).trans
      (precedes_resolveStmt thenBranch context _)).trans
      (precedes_resolveStmt elseBranch context _)
  | .whileDo condition body, context, a =>
    (precedes_resolveExpr condition context a).trans (precedes_resolveStmt body context _)
  | .breakLoop _, _, a => .refl a
  | .returnWith _ none, _, a => precedes_noteIf a _ _ _
  | .returnWith _ (some value), context, a =>
    ((precedes_noteIf a _ _ _).trans (precedes_noteIf _ _ _ _)).trans
      (precedes_resolveExpr value context _)
  | .funDecl (.mk name function), _, a =>
    (precedes_declareName name a).trans (precedes_resolveFunction function _ _)
  | .classDecl name superclass traits methods classMethods, _, a =>
    ((((precedes_resolveClassHead name superclass traits methods a).trans
      (precedes_enterClass name superclass _)).trans
      (precedes_resolveMethods methods _ _)).trans
      (precedes_resolveClassMethods classMethods _ _)).trans (precedes_leaveClass superclass _)
  | .traitDecl name traits methods, _, a =>
    (((precedes_resolveTraitHead name traits methods a).trans
      (precedes_bindImplicit (enter _) _ _)).trans
      (precedes_resolveMethods methods _ _)).trans (precedes_leave _)

theorem precedes_resolveBody : ∀ (body : List Stmt) (context : Context) (a : Analysis),
    a.Precedes (resolveBody context body a)
  | [], _, a => .refl a
  | statement :: rest, context, a =>
    (precedes_resolveStmt statement context a).trans (precedes_resolveBody rest context _)

end

/-! ## Steps of the walk -/

/-- A part of the walk agrees with the text: between the two positions it keeps the scopes in
agreement, at the sites it makes the table say what the text says, and it writes for no other
identities than those given. That holds if the part adds no problem and the table has had
nothing on these identities. -/
def Lexical (step : Analysis → Analysis) (before behind : Position) (ids : List RefId)
    (sites : List Site) : Prop :=
  ∀ a : Analysis, Agrees a before → (∀ id ∈ ids, a.bindings[id]? = none) →
    (step a).problems = [] →
    Agrees (step a) behind ∧
    (∀ id ∉ ids, (step a).bindings[id]? = a.bindings[id]?) ∧
    ∀ x ∈ sites, ∀ ref, x.moment.reference? = some ref →
      (step a).bindings[ref.id]? = x.position.lookup? ref.name.text

/-- A part that does nothing to the table. -/
theorem lexical_of_names {step : Analysis → Analysis} {p q : Position}
    (bindings : ∀ a, (step a).bindings = a.bindings)
    (names : ∀ a, Agrees a p → (step a).problems = [] → Agrees (step a) q) :
    Lexical step p q [] [] := by
  intro a hagree _ hclean
  refine ⟨names a hagree hclean, fun id _ => by rw [bindings], ?_⟩
  intro x hx
  cases hx

theorem lexical_id (p : Position) : Lexical (fun a => a) p p [] [] :=
  lexical_of_names (fun _ => rfl) fun _ h _ => h

/-- Two parts one after the other. What the first has written for its sites is still there after
the second, which writes for other identities. -/
theorem Lexical.comp {first second : Analysis → Analysis} {p q r : Position}
    {ids ids' : List RefId} {sites sites' : List Site} (h : Lexical first p q ids sites)
    (h' : Lexical second q r ids' sites') (mono : ∀ a : Analysis, a.Precedes (second a))
    (nodup : (ids ++ ids').Nodup) (refers : RefersWithin sites ids) :
    Lexical (fun a => second (first a)) p r (ids ++ ids') (sites ++ sites') := by
  intro a hagree hfree hclean
  have hdisjoint := (List.nodup_append.mp nodup).2.2
  obtain ⟨hq, hkept, hbound⟩ := h a hagree (fun id hid => hfree id (List.mem_append_left _ hid))
    ((mono _).clean hclean)
  -- What the first part binds is none of what the second one does, as no reference occurs twice.
  have hfree' : ∀ id ∈ ids', (first a).bindings[id]? = none := by
    intro id hid
    rw [hkept id fun hmem => hdisjoint id hmem id hid rfl]
    exact hfree id (List.mem_append_right _ hid)
  obtain ⟨hr, hkept', hbound'⟩ := h' (first a) hq hfree' hclean
  refine ⟨hr, ?_, ?_⟩
  · intro id hid
    rw [List.mem_append, not_or] at hid
    rw [hkept' id hid.2, hkept id hid.1]
  · intro x hx ref href
    rcases List.mem_append.mp hx with hx | hx
    · have hid : ref.id ∉ ids' := fun hmem =>
        hdisjoint ref.id (refers x hx ref href) ref.id hmem rfl
      rw [hkept' ref.id hid]
      exact hbound x hx ref href
    · exact hbound' x hx ref href

/-- More identities may be given, and fewer sites. -/
theorem Lexical.mono {step : Analysis → Analysis} {p q : Position} {ids ids' : List RefId}
    {sites sites' : List Site} (h : Lexical step p q ids sites) (hids : ids ⊆ ids')
    (hsites : sites' ⊆ sites) : Lexical step p q ids' sites' := by
  intro a hagree hfree hclean
  obtain ⟨hq, hkept, hbound⟩ := h a hagree (fun id hid => hfree id (hids hid)) hclean
  exact ⟨hq, fun id hid => hkept id fun hmem => hid (hids hmem),
    fun x hx => hbound x (hsites hx)⟩

/-- A site at which nothing is looked up. -/
theorem Lexical.cons {step : Analysis → Analysis} {p q : Position} {ids : List RefId}
    {sites : List Site} (h : Lexical step p q ids sites) {x : Site}
    (hx : x.moment.reference? = none) : Lexical step p q ids (x :: sites) := by
  intro a hagree hfree hclean
  obtain ⟨hq, hkept, hbound⟩ := h a hagree hfree hclean
  refine ⟨hq, hkept, ?_⟩
  intro y hy ref href
  rcases List.mem_cons.mp hy with rfl | hy
  · rw [hx] at href
    exact absurd href (by simp)
  · exact hbound y hy ref href

/-- A part that looks up one name. -/
theorem lexical_bind {step : Analysis → Analysis} {p : Position} (ref : Reference)
    {m : Moment} (hm : m.reference? = some ref) (names : ∀ a, (step a).names = a.names)
    (bindings : ∀ a, (step a).problems = [] →
      (step a).bindings = (a.bind ref.id ref.name.text).bindings) :
    Lexical step p p [ref.id] [⟨p, m⟩] := by
  intro a hagree hfree hclean
  have hlookup := hagree.lookup? ref.name.text
  have hnone := hfree ref.id List.mem_cons_self
  refine ⟨(names a).trans hagree, ?_, ?_⟩
  · intro id hid
    have hne : ref.id ≠ id := fun h => hid (by simp [h])
    rw [bindings a hclean]
    unfold Analysis.bind
    split
    · rw [Std.TreeMap.getElem?_insert]
      simp [hne]
    · rfl
  · intro x hx r hr
    rw [List.mem_singleton] at hx
    subst hx
    obtain rfl : ref = r := by simpa [hm] using hr
    rw [bindings a hclean, ← hlookup]
    unfold Analysis.bind
    split
    · next b hb => simp [hb]
    · next hb => rw [hb]; exact hnone

theorem lexical_resolveReference (ref : Reference) (p : Position) :
    Lexical (resolveReference ref) p p [ref.id] [⟨p, .evaluating (.variable ref)⟩] := by
  refine lexical_bind ref rfl (names_resolveReference ref) ?_
  exact fun a _ => bindings_resolveReference ref a

theorem lexical_resolveReferences (refs : List Reference) (p : Position)
    (nodup : (idsOf (refs.map Reference.occurrence)).Nodup) :
    Lexical (resolveReferences refs) p p (idsOf (refs.map Reference.occurrence))
      (readSites p refs) := by
  induction refs with
  | nil => exact lexical_id p
  | cons ref rest ih =>
    have hrest := ih (List.nodup_cons.mp nodup).2
    exact (lexical_resolveReference ref p).comp hrest (precedes_resolveReferences rest) nodup
      (refersWithin_readSites p [ref])

theorem lexical_resolveThis (body : ClassContext) (id : RefId) (line : Nat) (p : Position) :
    Lexical (resolveThis body id line) p p [id] [⟨p, .evaluating (.this id line)⟩] := by
  refine lexical_bind ⟨id, ⟨thisName, line⟩⟩ rfl (names_resolveThis body id line) ?_
  exact fun a clean => bindings_resolveThis clean

theorem lexical_resolveSuper (body : ClassContext) (id : RefId) (line : Nat) (method : Name)
    (p : Position) :
    Lexical (resolveSuper body id line) p p [id]
      [⟨p, .evaluating (.super id line method)⟩] := by
  refine lexical_bind ⟨id, ⟨superName, line⟩⟩ rfl (names_resolveSuper body id line) ?_
  exact fun a clean => bindings_resolveSuper clean

/-! ## Scopes of the walk and of the text -/

theorem map_begun_within {p : Position} (h : p.Settled) (name : String) :
    (p.within name).map Layer.begun = addName name (p.map Layer.begun) := by
  cases p with
  | nil => rfl
  | cons layer outer =>
    have : layer.pending = none := h layer (by simp)
    simp [Position.within, addName, Layer.begun, this]

theorem map_begun_declare {p : Position} (h : p.Settled) (name : String) :
    (p.declare name).map Layer.begun = addName name (p.map Layer.begun) := by
  cases p with
  | nil => rfl
  | cons layer outer =>
    have : layer.pending = none := h layer (by simp)
    simp [Position.declare, addName, Layer.begun, this]

theorem agrees_enter {a : Analysis} {p : Position} (h : Agrees a p) (region : Region) :
    Agrees a.enter (p.enter region []) := by
  simp only [Agrees, names_enter, Position.enter, List.map_cons] at h ⊢
  rw [h]
  rfl

theorem agrees_leave {a : Analysis} {layer : Layer} {p : Position}
    (h : Agrees a (layer :: p)) : Agrees a.leave p := by
  simp only [Agrees, names_leave] at h ⊢
  rw [h]
  rfl

theorem agrees_bindImplicit {a : Analysis} {p : Position} (h : Agrees a p) (region : Region)
    (name : String) (line : Nat) :
    Agrees (a.enter.bindImplicit name line) (p.enter region [name]) := by
  simp only [Agrees, names_bindImplicit, names_enter, addName] at h ⊢
  rw [h]
  rfl

theorem lexical_leave (layer : Layer) (p : Position) :
    Lexical Analysis.leave (layer :: p) p [] [] :=
  lexical_of_names bindings_leave fun _ h _ => agrees_leave h

/-- The start of a declaration, up to which its initializer or head follows. -/
theorem lexical_declare {p : Position} (h : p.Settled) (name : Name) :
    Lexical (·.declare name) p (p.within name.text) [] [] := by
  refine lexical_of_names (fun a => bindings_declare a name) ?_
  intro a hagree hclean
  unfold Agrees at hagree ⊢
  rw [names_declare hclean, map_begun_within h, hagree]

/-- The end of a declaration. -/
theorem lexical_define {p : Position} (h : p.Settled) (name : Name) :
    Lexical (·.define name) (p.within name.text) (p.declare name.text) [] [] := by
  refine lexical_of_names (fun a => bindings_define a name) ?_
  intro a hagree _
  unfold Agrees at hagree ⊢
  rw [names_define, map_begun_declare h, ← map_begun_within h, hagree]

theorem lexical_declareName {p : Position} (h : p.Settled) (name : Name) :
    Lexical (fun a => (a.declare name).define name) p (p.declare name.text) [] [] :=
  (lexical_declare h name).comp (lexical_define h name) (fun a => precedes_define a name)
    List.nodup_nil (by intro x hx; cases hx)

/-- Parameters take the first slots of a function. -/
theorem lexical_declareParameters (params : List Name) (region : Region)
    (declared : List String) (p : Position) :
    Lexical (fun a => params.foldl declareParameter a) (p.enter region declared)
      (p.enter region (declared ++ params.map Name.text)) [] [] := by
  induction params generalizing declared with
  | nil => simpa using lexical_id _
  | cons param rest ih =>
    have hfirst : Lexical (·.declareParameter param) (p.enter region declared)
        (p.enter region (declared ++ [param.text])) [] [] := by
      refine lexical_of_names (fun a => bindings_declareParameter a param) ?_
      intro a hagree hclean
      unfold Agrees at hagree ⊢
      rw [names_declareParameter hclean, hagree]
      simp [Position.enter, addName, Layer.begun]
    have hrest := ih (declared ++ [param.text])
    rw [List.append_assoc] at hrest
    exact hfirst.comp hrest (precedes_declareParameters rest) List.nodup_nil
      (by intro x hx; cases hx)

theorem lexical_enter (region : Region) (p : Position) :
    Lexical Analysis.enter p (p.enter region []) [] [] :=
  lexical_of_names bindings_enter fun _ h _ => agrees_enter h region

/-- A part that only changes the scopes, before another one. -/
theorem Lexical.preceded {first second : Analysis → Analysis} {p q r : Position}
    {ids : List RefId} {sites : List Site} (h' : Lexical second q r ids sites)
    (h : Lexical first p q [] []) (mono : ∀ a : Analysis, a.Precedes (second a))
    (nodup : ids.Nodup) : Lexical (fun a => second (first a)) p r ids sites :=
  h.comp h' mono nodup (by intro x hx; cases hx)

/-- A part that only changes the scopes, after another one. -/
theorem Lexical.followed {first second : Analysis → Analysis} {p q r : Position}
    {ids : List RefId} {sites : List Site} (h : Lexical first p q ids sites)
    (h' : Lexical second q r [] []) (mono : ∀ a : Analysis, a.Precedes (second a))
    (nodup : ids.Nodup) (refers : RefersWithin sites ids) :
    Lexical (fun a => second (first a)) p r ids sites := by
  have hcomp := h.comp h' mono (by rwa [List.append_nil]) refers
  rwa [List.append_nil, List.append_nil] at hcomp

theorem lexical_onlyNotes (step : Analysis → Analysis) (h : ∀ a, OnlyNotes a (step a))
    (p : Position) : Lexical step p p [] [] :=
  lexical_of_names (fun a => (h a).bindings) fun a hagree _ => (h a).names.trans hagree

/-- Resolve the superclass of a class that has one. -/
def resolveSuperclass (name : Name) : Option Reference → Analysis → Analysis
  | some ref, a =>
    resolveReference ref (a.noteIf (ref.name.text = name.text) ref.name .ownSuperclass)
  | none, a => a

theorem precedes_resolveSuperclass (name : Name) (superclass : Option Reference)
    (a : Analysis) : a.Precedes (resolveSuperclass name superclass a) := by
  cases superclass with
  | none => exact .refl a
  | some ref => exact (precedes_noteIf _ _ _ _).trans (precedes_resolveReference ref _)

theorem lexical_resolveSuperclass (name : Name) (superclass : Option Reference)
    (p : Position) :
    Lexical (resolveSuperclass name superclass) p p
      (idsOf (superclass.toList.map Reference.occurrence)) (readSites p superclass.toList) := by
  cases superclass with
  | none => exact lexical_id p
  | some ref =>
    exact (lexical_resolveReference ref p).preceded
      (lexical_onlyNotes (fun a => a.noteIf (ref.name.text = name.text) ref.name .ownSuperclass)
        (fun a => onlyNotes_noteIf a (ref.name.text = name.text) ref.name .ownSuperclass) p)
      (precedes_resolveReference ref) (by simp)

theorem resolveClassHead_eq (name : Name) (superclass : Option Reference)
    (traits : List Reference) (methods : List NamedFunction) (a : Analysis) :
    resolveClassHead name superclass traits methods a =
      (checkComposition traits methods (resolveReferences traits
        (resolveSuperclass name superclass ((a.declare name).define name)))).2 := by
  cases superclass <;> rfl

/-- The head of a class: its name is begun when the superclass and the traits are read. -/
theorem lexical_resolveClassHead {p : Position} (h : p.Settled) (name : Name)
    (superclass : Option Reference) (traits : List Reference) (methods : List NamedFunction)
    (nodup : (idsOf ((superclass.toList ++ traits).map Reference.occurrence)).Nodup) :
    Lexical (resolveClassHead name superclass traits methods) p (p.declare name.text)
      (idsOf ((superclass.toList ++ traits).map Reference.occurrence))
      (readSites (p.within name.text) (superclass.toList ++ traits)) := by
  have hnodup := nodup
  rw [List.map_append, idsOf_append] at hnodup
  have hnamed : Lexical (fun a => (a.declare name).define name) p (p.within name.text) [] [] := by
    intro a hagree hfree hclean
    obtain ⟨hq, hrest⟩ := lexical_declareName h name a hagree hfree hclean
    refine ⟨?_, hrest⟩
    unfold Agrees at hq ⊢
    rw [hq, map_begun_declare h, map_begun_within h]
  -- The heads are read where the name has begun; the check behind them only notes problems.
  have hreads := (lexical_resolveSuperclass name superclass (p.within name.text)).comp
    (lexical_resolveReferences traits (p.within name.text)
      (List.nodup_append.mp hnodup).2.1)
    (precedes_resolveReferences traits) hnodup (refersWithin_readSites _ _)
  rw [← idsOf_append, ← List.map_append, readSites, readSites, ← List.map_append] at hreads
  have hcheck : Lexical (fun a => (checkComposition traits methods a).2)
      (p.within name.text) (p.declare name.text) [] [] := by
    refine lexical_of_names (fun a => (onlyNotes_checkComposition traits methods a).bindings) ?_
    intro a hagree _
    unfold Agrees at hagree ⊢
    rw [(onlyNotes_checkComposition traits methods a).names, hagree, map_begun_declare h,
      map_begun_within h]
  have hall := ((hreads.preceded hnamed
    (fun a => (precedes_resolveSuperclass name superclass a).trans
      (precedes_resolveReferences traits _)) nodup).followed hcheck
    (fun a => (onlyNotes_checkComposition traits methods a).precedes) nodup
    (refersWithin_readSites _ _))
  intro a hagree hfree hclean
  rw [resolveClassHead_eq] at hclean ⊢
  exact hall a hagree hfree hclean

theorem lexical_enterClass {p : Position} (name : Name) (superclass : Option Reference) :
    Lexical (enterClass name superclass) (p.declare name.text)
      (p.methods name superclass.isSome) [] [] := by
  refine lexical_of_names (fun a => ?_) ?_
  · cases superclass <;> simp [enterClass]
  · intro a hagree _
    cases superclass with
    | none => exact agrees_bindImplicit hagree .receiver thisName name.line
    | some ref =>
      exact agrees_bindImplicit (agrees_bindImplicit hagree .superclass superName name.line)
        .receiver thisName name.line

theorem lexical_leaveClass {p : Position} (name : Name) (superclass : Option Reference) :
    Lexical (leaveClass superclass) (p.methods name superclass.isSome) (p.declare name.text)
      [] [] := by
  refine lexical_of_names (fun a => ?_) ?_
  · cases superclass <;> simp [leaveClass]
  · intro a hagree _
    cases superclass with
    | none => exact agrees_leave hagree
    | some ref => exact agrees_leave (agrees_leave hagree)

/-- The head of a trait: its name is begun when the traits it uses are read. -/
theorem lexical_resolveTraitHead {p : Position} (h : p.Settled) (name : Name)
    (traits : List Reference) (methods : List NamedFunction)
    (nodup : (idsOf (traits.map Reference.occurrence)).Nodup) :
    Lexical (resolveTraitHead name traits methods) p (p.declare name.text)
      (idsOf (traits.map Reference.occurrence)) (readSites (p.within name.text) traits) := by
  have hhead := lexical_resolveClassHead h name none traits methods nodup
  intro a hagree hfree hclean
  have hproblems : (resolveClassHead name none traits methods a).problems = [] := by
    rwa [resolveTraitHead, problems_changeTraits] at hclean
  have hwalk := hhead a hagree hfree hproblems
  unfold resolveTraitHead
  simp only [Agrees, names_changeTraits, bindings_changeTraits]
  exact hwalk

/-! ## The whole walk -/

/-- Two parts of a tree, one after the other, that stand at one position. -/
theorem Lexical.pair {first second : Analysis → Analysis} {p q r : Position}
    {os os' : List Occurrence} {sites sites' : List Site}
    (h : Lexical first p q (idsOf os) sites) (h' : Lexical second q r (idsOf os') sites')
    (mono : ∀ a : Analysis, a.Precedes (second a)) (nodup : (idsOf (os ++ os')).Nodup)
    (refers : RefersWithin sites (idsOf os)) :
    Lexical (fun a => second (first a)) p r (idsOf (os ++ os')) (sites ++ sites') := by
  rw [idsOf_append] at nodup ⊢
  exact h.comp h' mono nodup refers

theorem nodup_left {os os' : List Occurrence} (h : (idsOf (os ++ os')).Nodup) :
    (idsOf os).Nodup := by
  rw [idsOf_append] at h
  exact (List.nodup_append.mp h).1

theorem nodup_right {os os' : List Occurrence} (h : (idsOf (os ++ os')).Nodup) :
    (idsOf os').Nodup := by
  rw [idsOf_append] at h
  exact (List.nodup_append.mp h).2.1

mutual

/-- Resolving an expression agrees with the text. -/
theorem lexical_resolveExpr : ∀ (e : Expr) (context : Context) (p : Position), e.Formed →
    (idsOf e.occurrences).Nodup →
    Lexical (resolveExpr context e) p p (idsOf e.occurrences) (e.sites p)
  | .literal _, _, p, _, _ => (lexical_id p).cons rfl
  | .unary _ _ operand, context, p, formed, nodup =>
    (lexical_resolveExpr operand context p formed nodup).cons rfl
  | .binary left _ _ right, context, p, formed, nodup =>
    ((lexical_resolveExpr left context p formed.1 (nodup_left nodup)).pair
      (lexical_resolveExpr right context p formed.2 (nodup_right nodup))
      (precedes_resolveExpr right context) nodup (left.refersWithin p)).cons rfl
  | .logical left _ _ right, context, p, formed, nodup =>
    ((lexical_resolveExpr left context p formed.1 (nodup_left nodup)).pair
      (lexical_resolveExpr right context p formed.2 (nodup_right nodup))
      (precedes_resolveExpr right context) nodup (left.refersWithin p)).cons rfl
  | .conditional condition thenBranch elseBranch, context, p, formed, nodup =>
    (((lexical_resolveExpr condition context p formed.1 (nodup_left (nodup_left nodup))).pair
      (lexical_resolveExpr thenBranch context p formed.2.1 (nodup_right (nodup_left nodup)))
      (precedes_resolveExpr thenBranch context) (nodup_left nodup)
      (condition.refersWithin p)).pair
      (lexical_resolveExpr elseBranch context p formed.2.2 (nodup_right nodup))
      (precedes_resolveExpr elseBranch context) nodup (by
        rw [idsOf_append]
        exact (condition.refersWithin p).append (thenBranch.refersWithin p))).cons rfl
  | .grouping inner, context, p, formed, nodup =>
    (lexical_resolveExpr inner context p formed nodup).cons rfl
  | .variable ref, _, p, _, _ => lexical_resolveReference ref p
  | .assign ref value, context, p, formed, nodup => by
    -- The occurrence stands before its value in the text, and is resolved after it.
    have hnodup : (idsOf value.occurrences ++ [ref.id]).Nodup :=
      List.perm_append_comm.nodup_iff.mp nodup
    have hvalue := lexical_resolveExpr value context p formed.2 (List.nodup_append.mp hnodup).1
    have hstore : Lexical (·.bind ref.id ref.name.text) p p [ref.id] [⟨p, .storing ref⟩] :=
      lexical_bind ref rfl (fun a => by simp) fun _ _ => rfl
    have hboth := hvalue.comp hstore (fun a => precedes_bind a ref.id ref.name.text) hnodup
      (value.refersWithin p)
    refine (hboth.mono ?_ (List.Subset.refl _)).cons rfl
    intro id hid
    simp only [List.mem_append, List.mem_singleton] at hid
    simp only [Expr.occurrences, idsOf, List.map_cons, List.mem_cons] at hid ⊢
    exact hid.symm
  | .call callee arguments _, context, p, formed, nodup =>
    ((lexical_resolveExpr callee context p formed.1 (nodup_left nodup)).pair
      (lexical_resolveArguments arguments context p formed.2 (nodup_right nodup))
      (precedes_resolveArguments arguments context) nodup (callee.refersWithin p)).cons rfl
  | .get object _, context, p, formed, nodup =>
    (lexical_resolveExpr object context p formed nodup).cons rfl
  | .set object _ value, context, p, formed, nodup => by
    -- The value is resolved before the object that stands to the left of it.
    have hnodup : (idsOf (value.occurrences ++ object.occurrences)).Nodup := by
      simp only [Expr.occurrences, idsOf_append] at nodup ⊢
      exact List.perm_append_comm.nodup_iff.mp nodup
    have hboth := (lexical_resolveExpr value context p formed.2 (nodup_left hnodup)).pair
      (lexical_resolveExpr object context p formed.1 (nodup_right hnodup))
      (precedes_resolveExpr object context) hnodup (value.refersWithin p)
    refine (hboth.mono ?_ ?_).cons rfl
    · intro id hid
      simp only [Expr.occurrences, idsOf_append, List.mem_append] at hid ⊢
      exact hid.symm
    · intro x hx
      rw [List.mem_append] at hx ⊢
      exact hx.symm
  | .this id line, context, p, _, _ => lexical_resolveThis context.body id line p
  | .super id line method, context, p, _, _ => lexical_resolveSuper context.body id line method p
  | .lambda _ function, _, p, formed, nodup =>
    (lexical_resolveFunction function _ p formed nodup).cons rfl

theorem lexical_resolveArguments : ∀ (arguments : List Expr) (context : Context)
    (p : Position), FormedArguments arguments →
    (idsOf (occurrencesInArguments arguments)).Nodup →
    Lexical (resolveArguments context arguments) p p (idsOf (occurrencesInArguments arguments))
      (sitesInArguments p arguments)
  | [], _, p, _, _ => lexical_id p
  | argument :: rest, context, p, formed, nodup =>
    (lexical_resolveExpr argument context p formed.1 (nodup_left nodup)).pair
      (lexical_resolveArguments rest context p formed.2 (nodup_right nodup))
      (precedes_resolveArguments rest context) nodup (argument.refersWithin p)

theorem lexical_resolveFunction : ∀ (f : Function) (context : Context) (p : Position),
    f.Formed → (idsOf f.occurrences).Nodup →
    Lexical (resolveFunction context f) p p (idsOf f.occurrences) (f.sites p)
  | .mk params body, context, p, formed, nodup => by
    have hparams := (lexical_declareParameters params (.function (.mk params body)) [] p).preceded
      (lexical_enter _ p) (precedes_declareParameters params) List.nodup_nil
    have hbody := (lexical_resolveBody body context _ (Position.settled_enter _ _ _) formed.2.2 nodup).preceded
      hparams (precedes_resolveBody body context) nodup
    obtain ⟨layer, hlayer⟩ := Position.exists_endOf_cons body
      ⟨.function (.mk params body), [] ++ params.map Name.text, none⟩ p
    rw [Position.enter, hlayer] at hbody
    exact hbody.followed (lexical_leave layer p) precedes_leave nodup
      (refersWithin_body body _)

theorem lexical_resolveMethods : ∀ (methods : List NamedFunction) (body : ClassContext)
    (p : Position), FormedMethods methods → (idsOf (occurrencesInMethods methods)).Nodup →
    Lexical (resolveMethods body methods) p p (idsOf (occurrencesInMethods methods))
      (sitesInMethods p methods)
  | [], _, p, _, _ => lexical_id p
  | .mk _ function :: rest, body, p, formed, nodup =>
    (lexical_resolveFunction function _ p formed.1.2 (nodup_left nodup)).pair
      (lexical_resolveMethods rest body p formed.2 (nodup_right nodup))
      (precedes_resolveMethods rest body) nodup (function.refersWithin p)

theorem lexical_resolveClassMethods : ∀ (methods : List NamedFunction) (body : ClassContext)
    (p : Position), FormedMethods methods → (idsOf (occurrencesInMethods methods)).Nodup →
    Lexical (resolveClassMethods body methods) p p (idsOf (occurrencesInMethods methods))
      (sitesInMethods p methods)
  | [], _, p, _, _ => lexical_id p
  | .mk _ function :: rest, body, p, formed, nodup =>
    (lexical_resolveFunction function _ p formed.1.2 (nodup_left nodup)).pair
      (lexical_resolveClassMethods rest body p formed.2 (nodup_right nodup))
      (precedes_resolveClassMethods rest body) nodup (function.refersWithin p)

/-- Resolving a statement agrees with the text. -/
theorem lexical_resolveStmt : ∀ (s : Stmt) (context : Context) (p : Position), p.Settled →
    s.Formed → (idsOf s.occurrences).Nodup →
    Lexical (resolveStmt context s) p (p.after s) (idsOf s.occurrences) (s.sites p)
  | .expression value, context, p, _, formed, nodup =>
    (lexical_resolveExpr value context p formed nodup).cons rfl
  | .print value, context, p, _, formed, nodup =>
    (lexical_resolveExpr value context p formed nodup).cons rfl
  | .varDecl name none, _, p, settled, _, _ => (lexical_declareName settled name).cons rfl
  | .varDecl name (some initial), context, p, settled, formed, nodup =>
    (((lexical_resolveExpr initial context _ formed.2 nodup).preceded
      (lexical_declare settled name) (precedes_resolveExpr initial context) nodup).followed
      (lexical_define settled name) (precedes_define · name) nodup
      (initial.refersWithin _)).cons rfl
  | .block body, context, p, _, formed, nodup => by
    have hbody := (lexical_resolveBody body context _ (Position.settled_enter _ _ _) formed nodup).preceded
      (lexical_enter (.block body) p) (precedes_resolveBody body context) nodup
    obtain ⟨layer, hlayer⟩ := Position.exists_endOf_cons body ⟨.block body, [], none⟩ p
    rw [Position.enter, hlayer] at hbody
    exact (hbody.followed (lexical_leave layer p) precedes_leave nodup
      (refersWithin_body body _)).cons rfl
  | .ifThen condition thenBranch none, context, p, settled, formed, nodup => by
    have hthen := lexical_resolveStmt thenBranch context p settled formed.2.1 (nodup_right nodup)
    rw [Position.after_eq_self formed.2.2] at hthen
    exact ((lexical_resolveExpr condition context p formed.1 (nodup_left nodup)).pair hthen
      (precedes_resolveStmt thenBranch context) nodup (condition.refersWithin p)).cons rfl
  | .ifThen condition thenBranch (some elseBranch), context, p, settled, formed, nodup => by
    have hthen := lexical_resolveStmt thenBranch context p settled formed.2.1
      (nodup_right (nodup_left nodup))
    have helse := lexical_resolveStmt elseBranch context p settled formed.2.2.2.1
      (nodup_right nodup)
    rw [Position.after_eq_self formed.2.2.1] at hthen
    rw [Position.after_eq_self formed.2.2.2.2] at helse
    have hcondition := lexical_resolveExpr condition context p formed.1
      (nodup_left (nodup_left nodup))
    refine ((((hcondition.pair hthen (precedes_resolveStmt thenBranch context)
      (nodup_left nodup) (condition.refersWithin p))).pair helse
      (precedes_resolveStmt elseBranch context) nodup) ?_).cons rfl
    rw [idsOf_append]
    exact (condition.refersWithin p).append (thenBranch.refersWithin p)
  | .whileDo condition body, context, p, settled, formed, nodup => by
    have hbody := lexical_resolveStmt body context p settled formed.2.1 (nodup_right nodup)
    rw [Position.after_eq_self formed.2.2] at hbody
    exact ((lexical_resolveExpr condition context p formed.1 (nodup_left nodup)).pair hbody
      (precedes_resolveStmt body context) nodup (condition.refersWithin p)).cons rfl
  | .breakLoop _, _, p, _, _, _ => (lexical_id p).cons rfl
  | .returnWith line none, context, p, _, _, _ =>
    (lexical_onlyNotes (checkReturn context.function line) (fun a => onlyNotes_noteIf a _ _ _) p).cons rfl
  | .returnWith line (some value), context, p, _, formed, nodup =>
    ((lexical_resolveExpr value context p formed nodup).preceded
      (lexical_onlyNotes
        (fun a => checkReturnValue context.function line (checkReturn context.function line a))
        (fun a => (onlyNotes_noteIf a _ _ _).trans (onlyNotes_noteIf _ _ _ _)) p)
      (precedes_resolveExpr value context) nodup).cons rfl
  | .funDecl (.mk name function), _, p, settled, formed, nodup =>
    ((lexical_resolveFunction function _ _ formed.2 nodup).preceded
      (lexical_declareName settled name) (precedes_resolveFunction function _) nodup).cons rfl
  | .classDecl name superclass traits methods classMethods, _, p, settled, formed, nodup => by
    simp only [Stmt.occurrences, ← List.map_append] at nodup ⊢
    have hhead := (lexical_resolveClassHead settled name superclass traits methods
      (nodup_left (nodup_left nodup))).followed (lexical_enterClass name superclass)
      (precedes_enterClass name superclass) (nodup_left (nodup_left nodup))
      (refersWithin_readSites _ _)
    have hmethods := hhead.pair
      (lexical_resolveMethods methods (classContext superclass) _ formed.2.2.1
        (nodup_right (nodup_left nodup)))
      (precedes_resolveMethods methods _) (nodup_left nodup) (refersWithin_readSites _ _)
    have hrefers : RefersWithin _ _ := (refersWithin_readSites (p.within name.text)
      (superclass.toList ++ traits)).append
      (refersWithin_methods methods (p.methods name superclass.isSome))
    have hclass := hmethods.pair
      (lexical_resolveClassMethods classMethods (classContext superclass) _ formed.2.2.2
        (nodup_right nodup))
      (precedes_resolveClassMethods classMethods _) nodup (by rwa [idsOf_append])
    refine (hclass.followed (lexical_leaveClass name superclass) (precedes_leaveClass superclass)
      nodup ?_).cons rfl
    rw [idsOf_append, idsOf_append]
    exact hrefers.append (refersWithin_methods classMethods _)
  | .traitDecl name traits methods, _, p, settled, formed, nodup => by
    have henter : Lexical (fun a => a.enter.bindImplicit thisName name.line)
        (p.declare name.text) (p.methods name false) [] [] :=
      lexical_enterClass name none
    have hhead := (lexical_resolveTraitHead settled name traits methods
      (nodup_left nodup)).followed henter (fun a => precedes_bindImplicit a.enter _ _)
      (nodup_left nodup) (refersWithin_readSites _ _)
    have hmethods := hhead.pair
      (lexical_resolveMethods methods .traitBody _ formed.2.2 (nodup_right nodup))
      (precedes_resolveMethods methods _) nodup (refersWithin_readSites _ _)
    refine (hmethods.followed (lexical_leaveClass name none) (precedes_leaveClass none)
      nodup ?_).cons rfl
    rw [idsOf_append]
    exact (refersWithin_readSites _ _).append (refersWithin_methods methods _)

/-- Resolving statements in order agrees with the text. -/
theorem lexical_resolveBody : ∀ (body : List Stmt) (context : Context) (p : Position),
    p.Settled → FormedBody body → (idsOf (occurrencesInBody body)).Nodup →
    Lexical (resolveBody context body) p (p.endOf body) (idsOf (occurrencesInBody body))
      (sitesInBody p body)
  | [], _, p, _, _, _ => lexical_id p
  | statement :: rest, context, p, settled, formed, nodup =>
    (lexical_resolveStmt statement context p settled formed.1 (nodup_left nodup)).pair
      (lexical_resolveBody rest context _ (settled.after statement) formed.2
        (nodup_right nodup))
      (precedes_resolveBody rest context) nodup (statement.refersWithin p)

end

theorem getElem?_none (id : RefId) : Bindings.none[id]? = none :=
  Std.TreeMap.getElem?_emptyc

/-- In the table of a program without misuses, the binding of what is looked up at a site is the
one that the text says. -/
theorem bindings_of_resolve {program : List Stmt} {table : Bindings} (formed : FormedBody program)
    (nodup : (idsOf (occurrencesInBody program)).Nodup) (h : resolve program = .ok table) :
    (∀ id ∉ idsOf (occurrencesInBody program), table[id]? = none) ∧
      ∀ x ∈ sitesInBody [] program, ∀ ref, x.moment.reference? = some ref →
        table[ref.id]? = x.position.lookup? ref.name.text := by
  unfold resolve resolveWith at h
  cases hproblems : (resolveBody ⟨.outside, .outside⟩ program Analysis.start.restart).problems with
  | nil =>
    simp only [hproblems, Except.ok.injEq] at h
    subst h
    have hwalk := lexical_resolveBody program ⟨.outside, .outside⟩ [] (by simp [Position.Settled])
      formed nodup Analysis.start.restart rfl (fun id _ => getElem?_none id) hproblems
    obtain ⟨-, hkept, hbound⟩ := hwalk
    refine ⟨fun id hid => ?_, hbound⟩
    rw [hkept id hid]
    exact getElem?_none id
  | cons problem rest => simp [hproblems] at h

end Scoping

end LoxLang
