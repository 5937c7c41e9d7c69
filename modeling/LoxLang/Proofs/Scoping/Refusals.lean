import LoxLang.Proofs.Scoping.Lexical

/-!
# What resolution refuses

A program without misuses has no `return` outside of functions (`not_returns_of_resolve`), and
`this` and `super` stand only where the scopes around have a variable of that name
(`sheltered_of_resolve`): the walk reports them everywhere else, and what it has reported stays.
-/

namespace LoxLang

/-! ## Where `this` and `super` stand -/

/-- A scope around a position has declared a name. -/
def Position.Provides (p : Position) (name : String) : Prop :=
  ∃ layer ∈ p, name ∈ layer.declared

namespace Position

variable {p : Position} {name : String}

theorem Provides.lookup (h : p.Provides name) : (p.lookup? name).isSome = true := by
  obtain ⟨layer, hlayer, hname⟩ := h
  rw [Option.isSome_iff_ne_none]
  intro hnone
  exact lookup?_eq_none hnone layer hlayer (List.mem_append_left _ hname)

theorem Provides.enter (h : p.Provides name) (region : Region) (declared : List String) :
    (p.enter region declared).Provides name := by
  obtain ⟨layer, hlayer, hname⟩ := h
  exact ⟨layer, List.mem_cons_of_mem _ hlayer, hname⟩

theorem provides_enter (p : Position) (region : Region) (name : String) :
    (p.enter region [name]).Provides name :=
  ⟨_, List.mem_cons_self, List.mem_singleton_self name⟩

theorem Provides.within (h : p.Provides name) (word : String) :
    (p.within word).Provides name := by
  obtain ⟨layer, hlayer, hname⟩ := h
  cases p with
  | nil => cases hlayer
  | cons first outer =>
    rcases List.mem_cons.mp hlayer with rfl | hlayer
    · exact ⟨_, List.mem_cons_self, hname⟩
    · exact ⟨layer, List.mem_cons_of_mem _ hlayer, hname⟩

theorem Provides.declare (h : p.Provides name) (word : String) :
    (p.declare word).Provides name := by
  obtain ⟨layer, hlayer, hname⟩ := h
  cases p with
  | nil => cases hlayer
  | cons first outer =>
    rcases List.mem_cons.mp hlayer with rfl | hlayer
    · exact ⟨_, List.mem_cons_self, List.mem_append_left _ hname⟩
    · exact ⟨layer, List.mem_cons_of_mem _ hlayer, hname⟩

theorem Provides.after (h : p.Provides name) (s : Stmt) : (p.after s).Provides name := by
  unfold Position.after
  split
  · exact h.declare _
  · exact h

/-- The nearest methods around a position are those of a subclass: between them and the position
there are only blocks and functions. -/
def Derived (p : Position) : Prop :=
  ∃ inner receiver superclass outer, p = inner ++ receiver :: superclass :: outer ∧
    (∀ layer ∈ inner, ¬layer.region.Implicit) ∧ receiver.region = .receiver ∧
    superclass.region = .superclass ∧ superName ∈ superclass.declared

theorem Derived.provides (h : p.Derived) : p.Provides superName := by
  obtain ⟨inner, receiver, superclass, outer, rfl, -, -, -, hname⟩ := h
  exact ⟨superclass, by simp, hname⟩

theorem Derived.enter (h : p.Derived) {region : Region} (explicit : ¬region.Implicit)
    (declared : List String) : (p.enter region declared).Derived := by
  obtain ⟨inner, receiver, superclass, outer, rfl, hinner, hrest⟩ := h
  refine ⟨⟨region, declared, none⟩ :: inner, receiver, superclass, outer, rfl, ?_, hrest⟩
  intro layer hlayer
  rcases List.mem_cons.mp hlayer with rfl | hlayer
  · exact explicit
  · exact hinner layer hlayer

theorem derived_methods (p : Position) :
    ((p.enter .superclass [superName]).enter .receiver [thisName]).Derived :=
  ⟨[], _, _, p, rfl, nofun, rfl, rfl, List.mem_singleton_self superName⟩

/-- Another layer of the same region may take the place of the innermost one. -/
theorem Derived.replace {layer layer' : Layer} {outer : Position}
    (h : Position.Derived (layer :: outer)) (region : layer'.region = layer.region) :
    Position.Derived (layer' :: outer) := by
  obtain ⟨inner, receiver, superclass, outer', hp, hinner, hreceiver, hrest⟩ := h
  cases inner with
  | nil =>
    obtain ⟨rfl, rfl⟩ := List.cons.inj hp
    exact ⟨[], layer', superclass, outer', rfl, nofun, region.trans hreceiver, hrest⟩
  | cons first inner =>
    obtain ⟨rfl, rfl⟩ := List.cons.inj hp
    refine ⟨layer' :: inner, receiver, superclass, outer', rfl, ?_, hreceiver, hrest⟩
    intro other hother
    rcases List.mem_cons.mp hother with rfl | hother
    · rw [region]
      exact hinner layer List.mem_cons_self
    · exact hinner other (List.mem_cons_of_mem layer hother)

theorem Derived.within (h : p.Derived) (word : String) : (p.within word).Derived := by
  cases p with
  | nil => exact h
  | cons layer outer => exact h.replace rfl

theorem Derived.declare (h : p.Derived) (word : String) : (p.declare word).Derived := by
  cases p with
  | nil => exact h
  | cons layer outer => exact h.replace rfl

theorem Derived.after (h : p.Derived) (s : Stmt) : (p.after s).Derived := by
  unfold Position.after
  split
  · exact h.declare _
  · exact h

/-- In the methods of a subclass `super` denotes what the nearest scope of a superclass has. -/
theorem Formed.lookup_derived {inner outer : Position} {receiver superclass : Layer}
    (h : Formed (inner ++ receiver :: superclass :: outer))
    (explicit : ∀ layer ∈ inner, ¬layer.region.Implicit) (region : receiver.region = .receiver)
    (hname : superName ∈ superclass.declared) :
    lookup? superName (inner ++ receiver :: superclass :: outer) = some ⟨inner.length + 1, 0⟩ := by
  induction inner with
  | nil =>
    cases h with
    | scope ordinary _ _ _ => exact absurd region ordinary
    | receiver formed =>
      cases formed with
      | scope _ names _ _ => exact absurd rfl (names superName (List.mem_append_left _ hname)).2
      | receiver formed => exact absurd hname (by decide)
      | derived formed => exact absurd hname (by decide)
    | derived formed =>
      unfold lookup? lookup?
      rfl
  | cons layer inner ih =>
    have hlayer := explicit layer List.mem_cons_self
    rw [List.cons_append] at h ⊢
    -- A layer that is not implicit is an ordinary scope, which never declares `super`.
    obtain ⟨names, formed⟩ : (∀ name ∈ layer.begun, name ≠ thisName ∧ name ≠ superName) ∧
        Formed (inner ++ receiver :: superclass :: outer) := by
      generalize hp : layer :: (inner ++ receiver :: superclass :: outer) = p at h
      cases h with
      | outside => cases hp
      | scope _ names _ formed =>
        cases hp
        exact ⟨names, formed⟩
      | receiver formed =>
        obtain ⟨rfl, -⟩ := List.cons.inj hp
        exact absurd trivial hlayer
      | derived formed =>
        obtain ⟨rfl, -⟩ := List.cons.inj hp
        exact absurd trivial hlayer
    have hmissing : superName ∉ layer.begun := fun hmem => (names superName hmem).2 rfl
    rw [lookup?_cons_of_not_mem hmissing,
      ih formed fun other hother => explicit other (List.mem_cons_of_mem layer hother)]
    rfl

end Position

/-- Where `this` is evaluated a scope around has a variable of that name, and where `super` is,
the nearest methods around are those of a subclass. -/
def Site.Sheltered (x : Site) : Prop :=
  match x.moment with
  | .evaluating (.this _ _) => (x.position.lookup? thisName).isSome = true
  | .evaluating (.super _ _ _) => x.position.Derived
  | _ => True

/-- All of the sites are sheltered. -/
def Sheltered (sites : List Site) : Prop :=
  ∀ x ∈ sites, x.Sheltered

theorem Sheltered.append {first second : List Site} (h : Sheltered first)
    (h' : Sheltered second) : Sheltered (first ++ second) :=
  fun x hx => (List.mem_append.mp hx).elim (h x) (h' x)

theorem Sheltered.cons {x : Site} {sites : List Site} (hx : x.Sheltered) (h : Sheltered sites) :
    Sheltered (x :: sites) := by
  intro y hy
  rcases List.mem_cons.mp hy with rfl | hy
  · exact hx
  · exact h y hy

theorem sheltered_readSites (p : Position) (refs : List Reference) :
    Sheltered (readSites p refs) := by
  intro x hx
  simp only [readSites, List.mem_map] at hx
  obtain ⟨ref, -, rfl⟩ := hx
  exact trivial

namespace Scoping

open Analysis

/-! ## Reported for good -/

theorem precedes_resolveBody_of_mem {body : List Stmt} {s : Stmt} (mem : s ∈ body)
    (context : Context) (a : Analysis) :
    ∃ a' : Analysis, (resolveStmt context s a').Precedes (resolveBody context body a) := by
  induction body generalizing a with
  | nil => cases mem
  | cons first rest ih =>
    rcases List.mem_cons.mp mem with rfl | mem
    · exact ⟨a, precedes_resolveBody rest context _⟩
    · exact ih mem (resolveStmt context first a)

/-- A `return` outside of functions is reported. -/
theorem problems_of_returns {s : Stmt} (h : s.Returns) (body : ClassContext) (a : Analysis) :
    (resolveStmt ⟨.outside, body⟩ s a).problems ≠ [] := by
  induction h generalizing a with
  | @here line value =>
    have hnoted : (checkReturn .outside line a).problems ≠ [] := by
      simp [checkReturn, Analysis.noteIf, Analysis.note]
    cases value with
    | none => exact hnoted
    | some e =>
      have hlater : Precedes (checkReturn .outside line a)
          (resolveStmt ⟨.outside, body⟩ (.returnWith line (some e)) a) :=
        (precedes_noteIf _ _ _ _).trans (precedes_resolveExpr e _ _)
      exact fun hclean => hnoted (hlater.clean hclean)
  | @block statements s mem _ ih =>
    obtain ⟨a', hlater⟩ := precedes_resolveBody_of_mem mem ⟨.outside, body⟩ a.enter
    exact fun hclean => ih a' ((hlater.trans (precedes_leave _)).clean hclean)
  | @thenBranch condition s other _ ih =>
    cases other with
    | none => exact ih _
    | some elseBranch =>
      exact fun hclean => ih _ ((precedes_resolveStmt elseBranch _ _).clean hclean)
  | elseBranch _ ih => exact ih _
  | loop _ ih => exact ih _

/-! ## Implicit variables -/

/-- The scopes around a position have the variables that a class context promises. -/
structure ClassContext.Around (body : ClassContext) (p : Position) : Prop where
  receiver : body ≠ .outside → p.Provides thisName
  superclass : body = .derived → p.Derived

namespace ClassContext.Around

variable {body : ClassContext} {p : Position}

theorem outside (p : Position) : ClassContext.Around .outside p :=
  ⟨fun h => absurd rfl h, nofun⟩

theorem enter (h : body.Around p) {region : Region} (explicit : ¬region.Implicit)
    (declared : List String) : body.Around (p.enter region declared) :=
  ⟨fun hb => (h.receiver hb).enter region declared,
    fun hb => (h.superclass hb).enter explicit declared⟩

theorem within (h : body.Around p) (word : String) : body.Around (p.within word) :=
  ⟨fun hb => (h.receiver hb).within word, fun hb => (h.superclass hb).within word⟩

theorem declare (h : body.Around p) (word : String) : body.Around (p.declare word) :=
  ⟨fun hb => (h.receiver hb).declare word, fun hb => (h.superclass hb).declare word⟩

theorem after (h : body.Around p) (s : Stmt) : body.Around (p.after s) :=
  ⟨fun hb => (h.receiver hb).after s, fun hb => (h.superclass hb).after s⟩

end ClassContext.Around

theorem around_methods (name : Name) (superclass : Option Reference) (p : Position) :
    (classContext superclass).Around (p.methods name superclass.isSome) := by
  unfold classContext Position.methods
  cases superclass with
  | none => exact ⟨fun _ => Position.provides_enter _ .receiver thisName, nofun⟩
  | some ref =>
    exact ⟨fun _ => Position.provides_enter _ .receiver thisName,
      fun _ => Position.derived_methods _⟩

theorem around_traitMethods (name : Name) (p : Position) :
    ClassContext.Around .traitBody (p.methods name false) :=
  ⟨fun _ => Position.provides_enter _ .receiver thisName, nofun⟩

theorem sheltered_this {body : ClassContext} {p : Position} (around : body.Around p) (id : RefId)
    (line : Nat) {a : Analysis} (hclean : (resolveThis body id line a).problems = []) :
    Site.Sheltered ⟨p, .evaluating (.this id line)⟩ := by
  exact (around.receiver (inBody_of_resolveThis hclean)).lookup

theorem sheltered_super {body : ClassContext} {p : Position} (around : body.Around p) (id : RefId)
    (line : Nat) (method : Name) {a : Analysis}
    (hclean : (resolveSuper body id line a).problems = []) :
    Site.Sheltered ⟨p, .evaluating (.super id line method)⟩ := by
  exact around.superclass (derived_of_resolveSuper hclean)

mutual

theorem sheltered_expr : ∀ (e : Expr) (context : Context) (p : Position) (a : Analysis),
    context.body.Around p → (resolveExpr context e a).problems = [] → Sheltered (e.sites p)
  | .literal _, _, _, _, _, _ => .cons trivial nofun
  | .unary _ _ operand, context, p, a, around, hclean =>
    .cons trivial (sheltered_expr operand context p a around hclean)
  | .binary left _ _ right, context, p, a, around, hclean =>
    .cons trivial
      ((sheltered_expr left context p a around
        ((precedes_resolveExpr right context _).clean hclean)).append
        (sheltered_expr right context p _ around hclean))
  | .logical left _ _ right, context, p, a, around, hclean =>
    .cons trivial
      ((sheltered_expr left context p a around
        ((precedes_resolveExpr right context _).clean hclean)).append
        (sheltered_expr right context p _ around hclean))
  | .conditional condition thenBranch elseBranch, context, p, a, around, hclean => by
    have hthen := (precedes_resolveExpr elseBranch context _).clean hclean
    have hcondition := (precedes_resolveExpr thenBranch context _).clean hthen
    exact .cons trivial
      (((sheltered_expr condition context p a around hcondition).append
        (sheltered_expr thenBranch context p _ around hthen)).append
        (sheltered_expr elseBranch context p _ around hclean))
  | .grouping inner, context, p, a, around, hclean =>
    .cons trivial (sheltered_expr inner context p a around hclean)
  | .variable _, _, _, _, _, _ => .cons trivial nofun
  | .assign _ value, context, p, a, around, hclean =>
    .cons trivial
      ((sheltered_expr value context p a around ((precedes_bind _ _ _).clean hclean)).append
        (.cons trivial nofun))
  | .call callee arguments _, context, p, a, around, hclean =>
    .cons trivial
      ((sheltered_expr callee context p a around
        ((precedes_resolveArguments arguments context _).clean hclean)).append
        (sheltered_arguments arguments context p _ around hclean))
  | .get object _, context, p, a, around, hclean =>
    .cons trivial (sheltered_expr object context p a around hclean)
  | .set object _ value, context, p, a, around, hclean =>
    .cons trivial
      ((sheltered_expr object context p _ around hclean).append
        (sheltered_expr value context p a around
          ((precedes_resolveExpr object context _).clean hclean)))
  | .this id line, _, _, _, around, hclean => .cons (sheltered_this around id line hclean) nofun
  | .super id line method, _, _, _, around, hclean =>
    .cons (sheltered_super around id line method hclean) nofun
  | .lambda _ function, context, p, a, around, hclean =>
    .cons trivial
      (sheltered_function function { context with function := .ordinary } p a around hclean)

theorem sheltered_arguments : ∀ (arguments : List Expr) (context : Context) (p : Position)
    (a : Analysis), context.body.Around p →
    (resolveArguments context arguments a).problems = [] →
    Sheltered (sitesInArguments p arguments)
  | [], _, _, _, _, _ => nofun
  | argument :: rest, context, p, a, around, hclean =>
    (sheltered_expr argument context p a around
      ((precedes_resolveArguments rest context _).clean hclean)).append
      (sheltered_arguments rest context p _ around hclean)

theorem sheltered_function : ∀ (f : Function) (context : Context) (p : Position) (a : Analysis),
    context.body.Around p → (resolveFunction context f a).problems = [] →
    Sheltered (f.sites p)
  | .mk _ body, context, _, _, around, hclean =>
    sheltered_body body context _ _ (around.enter id _) ((precedes_leave _).clean hclean)

theorem sheltered_methods : ∀ (methods : List NamedFunction) (body : ClassContext) (p : Position)
    (a : Analysis), body.Around p → (resolveMethods body methods a).problems = [] →
    Sheltered (sitesInMethods p methods)
  | [], _, _, _, _, _ => nofun
  | .mk name function :: rest, body, p, a, around, hclean =>
    (sheltered_function function ⟨methodContext name, body⟩ p a around
      ((precedes_resolveMethods rest body _).clean hclean)).append
      (sheltered_methods rest body p _ around hclean)

theorem sheltered_classMethods : ∀ (methods : List NamedFunction) (body : ClassContext)
    (p : Position) (a : Analysis), body.Around p →
    (resolveClassMethods body methods a).problems = [] → Sheltered (sitesInMethods p methods)
  | [], _, _, _, _, _ => nofun
  | .mk _ function :: rest, body, p, a, around, hclean =>
    (sheltered_function function ⟨.ordinary, body⟩ p a around
      ((precedes_resolveClassMethods rest body _).clean hclean)).append
      (sheltered_classMethods rest body p _ around hclean)

theorem sheltered_stmt : ∀ (s : Stmt) (context : Context) (p : Position) (a : Analysis),
    context.body.Around p → (resolveStmt context s a).problems = [] → Sheltered (s.sites p)
  | .expression value, context, p, a, around, hclean =>
    .cons trivial (sheltered_expr value context p a around hclean)
  | .print value, context, p, a, around, hclean =>
    .cons trivial (sheltered_expr value context p a around hclean)
  | .varDecl _ none, _, _, _, _, _ => .cons trivial nofun
  | .varDecl name (some initial), context, _, _, around, hclean =>
    .cons trivial (sheltered_expr initial context _ _ (around.within _)
      ((precedes_define _ name).clean hclean))
  | .block body, context, _, _, around, hclean =>
    .cons trivial (sheltered_body body context _ _ (around.enter id _)
      ((precedes_leave _).clean hclean))
  | .ifThen condition thenBranch none, context, p, a, around, hclean =>
    .cons trivial
      ((sheltered_expr condition context p a around
        ((precedes_resolveStmt thenBranch context _).clean hclean)).append
        (sheltered_stmt thenBranch context p _ around hclean))
  | .ifThen condition thenBranch (some elseBranch), context, p, a, around, hclean => by
    have hthen := (precedes_resolveStmt elseBranch context _).clean hclean
    have hcondition := (precedes_resolveStmt thenBranch context _).clean hthen
    exact .cons trivial
      (((sheltered_expr condition context p a around hcondition).append
        (sheltered_stmt thenBranch context p _ around hthen)).append
        (sheltered_stmt elseBranch context p _ around hclean))
  | .whileDo condition body, context, p, a, around, hclean =>
    .cons trivial
      ((sheltered_expr condition context p a around
        ((precedes_resolveStmt body context _).clean hclean)).append
        (sheltered_stmt body context p _ around hclean))
  | .breakLoop _, _, _, _, _, _ => .cons trivial nofun
  | .returnWith _ none, _, _, _, _, _ => .cons trivial nofun
  | .returnWith _ (some value), context, p, _, around, hclean =>
    .cons trivial (sheltered_expr value context p _ around hclean)
  | .funDecl (.mk _ function), context, _, _, around, hclean =>
    .cons trivial (sheltered_function function { context with function := .ordinary } _ _
      (around.declare _) hclean)
  | .classDecl name superclass traits methods classMethods, _, p, _, _, hclean => by
    have hclass := (precedes_leaveClass superclass _).clean hclean
    have hmethods := (precedes_resolveClassMethods classMethods _ _).clean hclass
    exact .cons trivial
      (((sheltered_readSites _ _).append
        (sheltered_methods methods _ _ _ (around_methods name superclass p) hmethods)).append
        (sheltered_classMethods classMethods _ _ _ (around_methods name superclass p) hclass))
  | .traitDecl name traits methods, _, p, _, _, hclean =>
    .cons trivial
      ((sheltered_readSites _ _).append
        (sheltered_methods methods _ _ _ (around_traitMethods name p)
          ((precedes_leave _).clean hclean)))

theorem sheltered_body : ∀ (body : List Stmt) (context : Context) (p : Position) (a : Analysis),
    context.body.Around p → (resolveBody context body a).problems = [] →
    Sheltered (sitesInBody p body)
  | [], _, _, _, _, _ => nofun
  | statement :: rest, context, p, a, around, hclean =>
    (sheltered_stmt statement context p a around
      ((precedes_resolveBody rest context _).clean hclean)).append
      (sheltered_body rest context _ _ (around.after statement) hclean)

end

/-! ## Programs without misuses -/

theorem clean_of_resolve {program : List Stmt} {table : Bindings}
    (h : resolve program = .ok table) :
    (resolveBody ⟨.outside, .outside⟩ program Analysis.start.restart).problems = [] := by
  unfold resolve resolveWith at h
  cases hproblems :
      (resolveBody ⟨.outside, .outside⟩ program Analysis.start.restart).problems with
  | nil => rfl
  | cons problem rest => simp [hproblems] at h

/-- In a program without misuses no `return` stands outside of functions. -/
theorem not_returns_of_resolve {program : List Stmt} {table : Bindings}
    (h : resolve program = .ok table) : ∀ s ∈ program, ¬s.Returns := by
  intro s hs hreturns
  obtain ⟨a', hlater⟩ := precedes_resolveBody_of_mem hs ⟨.outside, .outside⟩ start.restart
  exact problems_of_returns hreturns .outside a' (hlater.clean (clean_of_resolve h))

/-- In a program without misuses `this` and `super` stand only where they denote something. -/
theorem sheltered_of_resolve {program : List Stmt} {table : Bindings}
    (h : resolve program = .ok table) : Sheltered (sitesInBody [] program) :=
  sheltered_body program ⟨.outside, .outside⟩ [] _ (.outside []) (clean_of_resolve h)

end Scoping

end LoxLang
