import LoxLang.Proofs.Scoping.Site

/-!
# Another scope around a part

A statement that declares nothing looks alike from within, whatever scopes it stands in: its sites
are those that it has outside of all scopes, with the scopes around it put around each of them
(`Stmt.sites_append`). So one more scope around it, in which nothing is declared, is seen by what is
found beyond it only, which then lies one scope further out (`Position.lookup?_insert`). A site that
executes a statement has the sites of that statement beside it (`closed_sitesInBody`).
-/

namespace LoxLang

/-- A site with further scopes around it. -/
def Site.around (x : Site) (outer : Position) : Site :=
  ⟨x.position ++ outer, x.moment⟩

/-! ## Positions with more scopes around -/

namespace Position

variable {p : Position} (q : Position)

theorem within_append (h : p ≠ []) (name : String) :
    (p ++ q).within name = p.within name ++ q := by
  cases p with
  | nil => exact absurd rfl h
  | cons layer outer => rfl

theorem declare_append (h : p ≠ []) (name : String) :
    (p ++ q).declare name = p.declare name ++ q := by
  cases p with
  | nil => exact absurd rfl h
  | cons layer outer => rfl

theorem after_append (h : p ≠ []) (s : Stmt) : (p ++ q).after s = p.after s ++ q := by
  unfold after
  cases s.declared? with
  | none => rfl
  | some name => exact declare_append q h name.text

theorem methods_append (h : p ≠ []) (name : Name) (derived : Bool) :
    (p ++ q).methods name derived = p.methods name derived ++ q := by
  unfold methods
  rw [declare_append q h]
  cases derived with
  | false => rfl
  | true => rfl

theorem after_ne_nil (h : p ≠ []) (s : Stmt) : p.after s ≠ [] := by
  cases p with
  | nil => exact absurd rfl h
  | cons layer outer =>
    unfold after
    cases s.declared? with
    | none => exact h
    | some name => simp [declare]

theorem enter_ne_nil (region : Region) (declared : List String) (p : Position) :
    p.enter region declared ≠ [] := by
  simp [enter]

end Position

theorem readSites_append (p q : Position) (refs : List Reference) :
    readSites (p ++ q) refs = (readSites p refs).map (·.around q) := by
  unfold readSites
  rw [List.map_map]
  rfl

/-- A statement that can stand at a position and be moved into further scopes: outside of all
scopes, only one that declares nothing. -/
def Stmt.Movable (s : Stmt) (p : Position) : Prop :=
  p = [] → s.Formed ∧ s.declared? = none

theorem Stmt.movable_of_ne {p : Position} (h : p ≠ []) (s : Stmt) : s.Movable p :=
  fun hnil => absurd hnil h

mutual

theorem Expr.sites_append : ∀ (e : Expr) (p q : Position),
    e.sites (p ++ q) = (e.sites p).map (·.around q)
  | .literal _, _, _ => rfl
  | .unary _ _ operand, p, q => by
    simp only [Expr.sites, List.map_cons, operand.sites_append p q]
    rfl
  | .binary left _ _ right, p, q => by
    simp only [Expr.sites, List.map_cons, List.map_append, left.sites_append p q,
      right.sites_append p q]
    rfl
  | .logical left _ _ right, p, q => by
    simp only [Expr.sites, List.map_cons, List.map_append, left.sites_append p q,
      right.sites_append p q]
    rfl
  | .conditional condition thenBranch elseBranch, p, q => by
    simp only [Expr.sites, List.map_cons, List.map_append, condition.sites_append p q,
      thenBranch.sites_append p q, elseBranch.sites_append p q]
    rfl
  | .grouping inner, p, q => by
    simp only [Expr.sites, List.map_cons, inner.sites_append p q]
    rfl
  | .variable _, _, _ => rfl
  | .assign _ value, p, q => by
    simp only [Expr.sites, List.map_cons, List.map_append, value.sites_append p q]
    rfl
  | .call callee arguments _, p, q => by
    simp only [Expr.sites, List.map_cons, List.map_append, callee.sites_append p q,
      sitesInArguments_append arguments p q]
    rfl
  | .get object _, p, q => by
    simp only [Expr.sites, List.map_cons, object.sites_append p q]
    rfl
  | .set object _ value, p, q => by
    simp only [Expr.sites, List.map_cons, List.map_append, object.sites_append p q,
      value.sites_append p q]
    rfl
  | .this _ _, _, _ => rfl
  | .super _ _ _, _, _ => rfl
  | .lambda _ function, p, q => by
    simp only [Expr.sites, List.map_cons, function.sites_append p q]
    rfl

theorem sitesInArguments_append : ∀ (arguments : List Expr) (p q : Position),
    sitesInArguments (p ++ q) arguments = (sitesInArguments p arguments).map (·.around q)
  | [], _, _ => rfl
  | argument :: rest, p, q => by
    simp only [sitesInArguments, List.map_append, argument.sites_append p q,
      sitesInArguments_append rest p q]

theorem Function.sites_append : ∀ (f : Function) (p q : Position),
    f.sites (p ++ q) = (f.sites p).map (·.around q)
  | .mk _ body, p, q => sitesInBody_append body _ q (Position.enter_ne_nil _ _ p)

theorem NamedFunction.sites_append : ∀ (f : NamedFunction) (p q : Position),
    f.sites (p ++ q) = (f.sites p).map (·.around q)
  | .mk _ function, p, q => function.sites_append p q

theorem sitesInMethods_append : ∀ (methods : List NamedFunction) (p q : Position),
    sitesInMethods (p ++ q) methods = (sitesInMethods p methods).map (·.around q)
  | [], _, _ => rfl
  | method :: rest, p, q => by
    simp only [sitesInMethods, List.map_append, method.sites_append p q,
      sitesInMethods_append rest p q]

theorem Stmt.sites_append : ∀ (s : Stmt) (p q : Position), s.Movable p →
    s.sites (p ++ q) = (s.sites p).map (·.around q)
  | .expression value, p, q, _ => by
    simp only [Stmt.sites, List.map_cons, value.sites_append p q]
    rfl
  | .print value, p, q, _ => by
    simp only [Stmt.sites, List.map_cons, value.sites_append p q]
    rfl
  | .varDecl _ none, _, _, _ => rfl
  | .varDecl name (some initial), p, q, movable => by
    -- What a declaration changes is the innermost scope, which is not one of the further ones.
    have hp : p ≠ [] := fun hnil => by simpa [Stmt.declared?] using (movable hnil).2
    simp only [Stmt.sites, List.map_cons, Position.within_append q hp,
      initial.sites_append _ q]
    rfl
  | .block body, p, q, _ => by
    have hbody := sitesInBody_append body (p.enter (.block body) []) q
      (Position.enter_ne_nil _ _ p)
    simp only [Stmt.sites, List.map_cons]
    exact congrArg _ hbody
  | .ifThen condition thenBranch none, p, q, movable => by
    have hthen : thenBranch.Movable p := fun hnil => (movable hnil).1.2
    simp only [Stmt.sites, List.map_cons, List.map_append, condition.sites_append p q,
      thenBranch.sites_append p q hthen]
    rfl
  | .ifThen condition thenBranch (some elseBranch), p, q, movable => by
    have hthen : thenBranch.Movable p := fun hnil =>
      ⟨(movable hnil).1.2.1, (movable hnil).1.2.2.1⟩
    have helse : elseBranch.Movable p := fun hnil => (movable hnil).1.2.2.2
    simp only [Stmt.sites, List.map_cons, List.map_append, condition.sites_append p q,
      thenBranch.sites_append p q hthen, elseBranch.sites_append p q helse]
    rfl
  | .whileDo condition body, p, q, movable => by
    have hbody : body.Movable p := fun hnil => (movable hnil).1.2
    simp only [Stmt.sites, List.map_cons, List.map_append, condition.sites_append p q,
      body.sites_append p q hbody]
    rfl
  | .breakLoop _, _, _, _ => rfl
  | .returnWith _ none, _, _, _ => rfl
  | .returnWith _ (some value), p, q, _ => by
    simp only [Stmt.sites, List.map_cons, value.sites_append p q]
    rfl
  | .funDecl declared, p, q, movable => by
    have hp : p ≠ [] := fun hnil => by simpa [Stmt.declared?] using (movable hnil).2
    simp only [Stmt.sites, List.map_cons, Position.declare_append q hp,
      declared.sites_append _ q]
    rfl
  | .classDecl name superclass traits methods classMethods, p, q, movable => by
    have hp : p ≠ [] := fun hnil => by simpa [Stmt.declared?] using (movable hnil).2
    simp only [Stmt.sites, List.map_cons, List.map_append, Position.within_append q hp,
      Position.methods_append q hp, readSites_append, sitesInMethods_append methods _ q,
      sitesInMethods_append classMethods _ q]
    rfl
  | .traitDecl name traits methods, p, q, movable => by
    have hp : p ≠ [] := fun hnil => by simpa [Stmt.declared?] using (movable hnil).2
    simp only [Stmt.sites, List.map_cons, List.map_append, Position.within_append q hp,
      Position.methods_append q hp, readSites_append, sitesInMethods_append methods _ q]
    rfl

theorem sitesInBody_append : ∀ (body : List Stmt) (p q : Position), p ≠ [] →
    sitesInBody (p ++ q) body = (sitesInBody p body).map (·.around q)
  | [], _, _, _ => rfl
  | s :: rest, p, q, hp => by
    have hrest := sitesInBody_append rest (p.after s) q (Position.after_ne_nil hp s)
    simp only [sitesInBody, List.map_append, s.sites_append p q (s.movable_of_ne hp),
      Position.after_append q hp, hrest]

end

/-! ## What is found with more scopes around -/

/-- A binding from within a number of scopes, with one more scope just around these. -/
def Binding.past (b : Binding) (scopes : Nat) : Binding :=
  if b.depth < scopes then b else ⟨b.depth + 1, b.slot⟩

theorem Position.lookup?_append (name : String) (p q : Position) :
    (p ++ q).lookup? name = (p.lookup? name).or
      ((q.lookup? name).map fun b => ⟨b.depth + p.length, b.slot⟩) := by
  generalize hq : q.lookup? name = found
  induction p with
  | nil =>
    show q.lookup? name = (none : Option Binding).or _
    rw [hq]
    cases found with
    | none => rfl
    | some b => rfl
  | cons layer outer ih =>
    show lookup? name (layer :: (outer ++ q)) = _
    unfold lookup?
    cases layer.begun.findIdx? (· == name) with
    | some slot => rfl
    | none =>
      show (lookup? name (outer ++ q)).map _ = ((lookup? name outer).map _).or _
      rw [ih]
      cases lookup? name outer with
      | some b => rfl
      | none =>
        cases found with
        | none => rfl
        | some b => rfl

theorem Position.lookup?_eq_none_iff {name : String} {p : Position} :
    p.lookup? name = none ↔ ∀ layer ∈ p, name ∉ layer.begun := by
  refine ⟨Position.lookup?_eq_none, fun h => ?_⟩
  cases hfound : p.lookup? name with
  | none => rfl
  | some b =>
    obtain ⟨⟨layer, hlayer, hslot⟩, -⟩ := Position.lookup?_eq_some hfound
    exact absurd (List.mem_of_getElem? hslot) (h layer (List.mem_of_getElem? hlayer))

/-- What is found lies in one of the scopes. -/
theorem Position.depth_lt_of_lookup {name : String} {p : Position} {b : Binding}
    (h : p.lookup? name = some b) : b.depth < p.length := by
  obtain ⟨⟨layer, hlayer, -⟩, -⟩ := Position.lookup?_eq_some h
  rcases Nat.lt_or_ge b.depth p.length with hlt | hge
  · exact hlt
  · rw [List.getElem?_eq_none hge] at hlayer
    cases hlayer

/-- One more scope that declares nothing is passed by what is found beyond it. -/
theorem Position.lookup?_insert (name : String) (p : Position) {layer : Layer} (q : Position)
    (empty : layer.begun = []) :
    (p ++ layer :: q).lookup? name =
      ((p ++ q).lookup? name).map (·.past p.length) := by
  have hlayer : lookup? name (layer :: q) =
      (q.lookup? name).map fun b => (⟨b.depth + 1, b.slot⟩ : Binding) :=
    lookup?_cons_of_not_mem (by simp [empty]) q
  rw [Position.lookup?_append, Position.lookup?_append, hlayer]
  -- A name that is found before the empty layer stays as deep as it is; others lie one layer
  -- further out.
  cases hinner : p.lookup? name with
  | some b =>
    have hlt := Position.depth_lt_of_lookup hinner
    show some b = some (b.past p.length)
    unfold Binding.past
    rw [if_pos hlt]
  | none =>
    cases q.lookup? name with
    | none => rfl
    | some b =>
      show some (⟨b.depth + 1 + p.length, b.slot⟩ : Binding) =
        some (Binding.past ⟨b.depth + p.length, b.slot⟩ p.length)
      unfold Binding.past
      rw [if_neg (by show ¬b.depth + p.length < p.length; omega)]
      show some (⟨b.depth + 1 + p.length, b.slot⟩ : Binding) = some ⟨b.depth + p.length + 1, b.slot⟩
      congr 2
      omega

/-! ## The sites of a part -/

/-- Sites among which those of each statement are that is executed at one of them. -/
def ClosedSites (sites : List Site) : Prop :=
  ∀ p s, ⟨p, .executing s⟩ ∈ sites → s.sites p ⊆ sites

section

variable {sites sites' : List Site} {p : Position} {e : Expr} {s : Stmt}

theorem ClosedSites.append (h : ClosedSites sites) (h' : ClosedSites sites') :
    ClosedSites (sites ++ sites') := by
  intro p s hmem
  rcases List.mem_append.mp hmem with hmem | hmem
  · exact List.subset_append_of_subset_left _ (h p s hmem)
  · exact List.subset_append_of_subset_right _ (h' p s hmem)

theorem ClosedSites.evaluating (h : ClosedSites sites) :
    ClosedSites (⟨p, .evaluating e⟩ :: sites) := by
  intro p s hmem
  rcases List.mem_cons.mp hmem with hhead | hmem
  · cases hhead
  · exact List.subset_cons_of_subset _ (h p s hmem)

theorem closedSites_nil : ClosedSites [] := by
  intro p s hmem
  cases hmem

/-- A statement before the sites of its parts. -/
theorem ClosedSites.executing (h : ClosedSites sites)
    (hs : s.sites p = ⟨p, .executing s⟩ :: sites) : ClosedSites (s.sites p) := by
  rw [hs]
  intro p' s' hmem
  rcases List.mem_cons.mp hmem with hhead | hmem
  · cases hhead
    rw [hs]
    exact List.Subset.refl _
  · exact List.subset_cons_of_subset _ (h p' s' hmem)

theorem closed_readSites (p : Position) (refs : List Reference) :
    ClosedSites (readSites p refs) := by
  intro p' s hmem
  obtain ⟨ref, -, hsite⟩ := List.mem_map.mp hmem
  cases hsite

end

mutual

theorem Expr.closed_sites : ∀ (e : Expr) (p : Position), ClosedSites (e.sites p)
  | .literal _, _ => closedSites_nil.evaluating
  | .unary _ _ operand, p => (operand.closed_sites p).evaluating
  | .binary left _ _ right, p => ((left.closed_sites p).append (right.closed_sites p)).evaluating
  | .logical left _ _ right, p => ((left.closed_sites p).append (right.closed_sites p)).evaluating
  | .conditional condition thenBranch elseBranch, p =>
    (((condition.closed_sites p).append (thenBranch.closed_sites p)).append
      (elseBranch.closed_sites p)).evaluating
  | .grouping inner, p => (inner.closed_sites p).evaluating
  | .variable _, _ => closedSites_nil.evaluating
  | .assign ref value, p => by
    have hstore : ClosedSites [⟨p, .storing ref⟩] := by
      intro p' s hmem
      cases List.mem_singleton.mp hmem
    exact ((value.closed_sites p).append hstore).evaluating
  | .call callee arguments _, p =>
    ((callee.closed_sites p).append (closed_sitesInArguments arguments p)).evaluating
  | .get object _, p => (object.closed_sites p).evaluating
  | .set object _ value, p =>
    ((object.closed_sites p).append (value.closed_sites p)).evaluating
  | .this _ _, _ => closedSites_nil.evaluating
  | .super _ _ _, _ => closedSites_nil.evaluating
  | .lambda _ function, p => (function.closed_sites p).evaluating

theorem closed_sitesInArguments : ∀ (arguments : List Expr) (p : Position),
    ClosedSites (sitesInArguments p arguments)
  | [], _ => closedSites_nil
  | argument :: rest, p => (argument.closed_sites p).append (closed_sitesInArguments rest p)

theorem Function.closed_sites : ∀ (f : Function) (p : Position), ClosedSites (f.sites p)
  | .mk _ body, _ => closed_sitesInBody body _

theorem NamedFunction.closed_sites : ∀ (f : NamedFunction) (p : Position),
    ClosedSites (f.sites p)
  | .mk _ function, p => function.closed_sites p

theorem closed_sitesInMethods : ∀ (methods : List NamedFunction) (p : Position),
    ClosedSites (sitesInMethods p methods)
  | [], _ => closedSites_nil
  | method :: rest, p => (method.closed_sites p).append (closed_sitesInMethods rest p)

theorem Stmt.closed_sites : ∀ (s : Stmt) (p : Position), ClosedSites (s.sites p)
  | .expression value, p => (value.closed_sites p).executing rfl
  | .print value, p => (value.closed_sites p).executing rfl
  | .varDecl _ none, _ => closedSites_nil.executing rfl
  | .varDecl name (some initial), p => (initial.closed_sites (p.within name.text)).executing rfl
  | .block body, p => (closed_sitesInBody body (p.enter (.block body) [])).executing rfl
  | .ifThen condition thenBranch none, p =>
    ((condition.closed_sites p).append (thenBranch.closed_sites p)).executing rfl
  | .ifThen condition thenBranch (some elseBranch), p =>
    (((condition.closed_sites p).append (thenBranch.closed_sites p)).append
      (elseBranch.closed_sites p)).executing rfl
  | .whileDo condition body, p =>
    ((condition.closed_sites p).append (body.closed_sites p)).executing rfl
  | .breakLoop _, _ => closedSites_nil.executing rfl
  | .returnWith _ none, _ => closedSites_nil.executing rfl
  | .returnWith _ (some value), p => (value.closed_sites p).executing rfl
  | .funDecl declared, p =>
    (declared.closed_sites (p.declare declared.name.text)).executing rfl
  | .classDecl _ _ _ methods classMethods, _ =>
    (((closed_readSites _ _).append (closed_sitesInMethods methods _)).append
      (closed_sitesInMethods classMethods _)).executing rfl
  | .traitDecl _ _ methods, _ =>
    ((closed_readSites _ _).append (closed_sitesInMethods methods _)).executing rfl

theorem closed_sitesInBody : ∀ (body : List Stmt) (p : Position),
    ClosedSites (sitesInBody p body)
  | [], _ => closedSites_nil
  | s :: rest, p => (s.closed_sites p).append (closed_sitesInBody rest (p.after s))

end

end LoxLang
