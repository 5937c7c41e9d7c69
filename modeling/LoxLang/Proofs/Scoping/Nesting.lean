import LoxLang.Proofs.Scoping.Site

/-!
# Nested scopes

The scopes around a site are those of the functions, blocks, classes and traits that it is a part
of: wherever a scope around a site is that of a function, the site is one of the sites of that
function, at the position around that scope (`enclosed_of_program`).
-/

namespace LoxLang

/-- The same scopes, of which the innermost may have declared other names. -/
def Position.Alike : Position → Position → Prop
  | [], p => p = []
  | layer :: outer, p => ∃ layer' : Layer, p = layer' :: outer ∧ layer'.region = layer.region

/-- A site in the scopes of a position and in further ones, where it is one of the sites of each
function among the further scopes. -/
structure Site.Nested (p : Position) (x : Site) : Prop where
  inside : ∃ inner p' : Position, x.position = inner ++ p' ∧ p.Alike p'
  enclosed : ∀ (before : Position) (layer : Layer) (after : Position) (f : Function),
    x.position = before ++ layer :: after → layer.region = .function f →
      p.length ≤ after.length → x ∈ f.sites after

/-- All of the sites are nested in the scopes of a position. -/
def NestedSites (p : Position) (sites : List Site) : Prop :=
  ∀ x ∈ sites, x.Nested p

section

variable {p p' : Position} {sites sites' : List Site}

/-! ## Positions that are alike -/

theorem Position.Alike.refl (p : Position) : p.Alike p := by
  cases p with
  | nil => rfl
  | cons layer outer => exact ⟨layer, rfl, rfl⟩

theorem Position.Alike.trans {p'' : Position} (h : p.Alike p') (h' : p'.Alike p'') :
    p.Alike p'' := by
  cases p with
  | nil =>
    cases h
    exact h'
  | cons layer outer =>
    obtain ⟨layer', rfl, hregion⟩ := h
    obtain ⟨layer'', rfl, hregion'⟩ := h'
    exact ⟨layer'', rfl, hregion'.trans hregion⟩

theorem Position.Alike.length_eq (h : p.Alike p') : p'.length = p.length := by
  cases p with
  | nil =>
    cases h
    rfl
  | cons layer outer =>
    obtain ⟨layer', rfl, -⟩ := h
    rfl

theorem Position.alike_within (name : String) (p : Position) : p.Alike (p.within name) := by
  cases p with
  | nil => rfl
  | cons layer outer => exact ⟨_, rfl, rfl⟩

theorem Position.alike_declare (name : String) (p : Position) : p.Alike (p.declare name) := by
  cases p with
  | nil => rfl
  | cons layer outer => exact ⟨_, rfl, rfl⟩

theorem Position.alike_after (s : Stmt) (p : Position) : p.Alike (p.after s) := by
  unfold Position.after
  split
  · exact alike_declare _ p
  · exact .refl p

/-! ## Sites of parts -/

theorem NestedSites.nil (p : Position) : NestedSites p [] := by
  intro x hx
  cases hx

theorem NestedSites.append (h : NestedSites p sites) (h' : NestedSites p sites') :
    NestedSites p (sites ++ sites') := by
  intro x hx
  exact (List.mem_append.mp hx).elim (h x) (h' x)

/-- A site at the position itself. -/
theorem nested_here (p : Position) (moment : Moment) : Site.Nested p ⟨p, moment⟩ where
  inside := ⟨[], p, rfl, .refl p⟩
  enclosed before layer after f hposition _ hlength := by
    have hsum := congrArg List.length hposition
    simp only [List.length_append, List.length_cons] at hsum
    omega

theorem NestedSites.cons {moment : Moment} (h : NestedSites p sites) :
    NestedSites p (⟨p, moment⟩ :: sites) := by
  intro x hx
  rcases List.mem_cons.mp hx with rfl | hx
  · exact nested_here p moment
  · exact h x hx

theorem nestedSites_singleton (p : Position) (moment : Moment) :
    NestedSites p [⟨p, moment⟩] :=
  (NestedSites.nil p).cons

theorem nestedSites_readSites (p : Position) (refs : List Reference) :
    NestedSites p (readSites p refs) := by
  intro x hx
  obtain ⟨ref, -, rfl⟩ := List.mem_map.mp hx
  exact nested_here p _

theorem NestedSites.alike (h : NestedSites p' sites) (alike : p.Alike p') :
    NestedSites p sites := by
  intro x hx
  obtain ⟨⟨inner, found, hposition, halike⟩, enclosed⟩ := h x hx
  refine ⟨⟨inner, found, hposition, alike.trans halike⟩, ?_⟩
  rwa [← alike.length_eq]

/-- What is nested in a scope is nested around it, if it is one of the sites of the function that
the scope is of. -/
theorem NestedSites.enter {region : Region} {declared : List String}
    (h : NestedSites (p.enter region declared) sites)
    (here : ∀ f, region = .function f → ∀ x ∈ sites, x ∈ f.sites p) : NestedSites p sites := by
  intro x hx
  obtain ⟨⟨inner, found, hposition, alike⟩, enclosed⟩ := h x hx
  obtain ⟨layer, rfl, hregion⟩ := alike
  refine ⟨⟨inner ++ [layer], p, by simp [hposition], .refl p⟩, ?_⟩
  intro before found after f hfound hfunction hlength
  rcases Nat.lt_or_ge p.length after.length with hlt | hge
  · exact enclosed before found after f hfound hfunction hlt
  · have hsame : inner = before ∧ layer :: p = found :: after := by
      refine List.append_inj' (hposition.symm.trans hfound) ?_
      simp only [List.length_cons]
      omega
    obtain ⟨-, hsame⟩ := hsame
    cases hsame
    exact here f (hregion.symm.trans hfunction) x hx

/-- The methods of a class or trait lie in no function but those around the class or trait. -/
theorem NestedSites.of_methods {name : Name} {derived : Bool}
    (h : NestedSites (p.methods name derived) sites) : NestedSites p sites := by
  have hmethods := h.enter nofun
  refine NestedSites.alike ?_ (p.alike_declare name.text)
  cases derived with
  | false => exact hmethods
  | true => exact hmethods.enter nofun

end

/-! ## Sites of trees -/

mutual

theorem Expr.nestedSites : ∀ (e : Expr) (p : Position), NestedSites p (e.sites p)
  | .literal _, p => nestedSites_singleton p _
  | .unary _ _ operand, p => (operand.nestedSites p).cons
  | .binary left _ _ right, p => ((left.nestedSites p).append (right.nestedSites p)).cons
  | .logical left _ _ right, p => ((left.nestedSites p).append (right.nestedSites p)).cons
  | .conditional condition thenBranch elseBranch, p =>
    (((condition.nestedSites p).append (thenBranch.nestedSites p)).append
      (elseBranch.nestedSites p)).cons
  | .grouping inner, p => (inner.nestedSites p).cons
  | .variable _, p => nestedSites_singleton p _
  | .assign _ value, p => ((value.nestedSites p).append (nestedSites_singleton p _)).cons
  | .call callee arguments _, p =>
    ((callee.nestedSites p).append (nestedSites_arguments arguments p)).cons
  | .get object _, p => (object.nestedSites p).cons
  | .set object _ value, p => ((object.nestedSites p).append (value.nestedSites p)).cons
  | .this _ _, p => nestedSites_singleton p _
  | .super _ _ _, p => nestedSites_singleton p _
  | .lambda _ function, p => (function.nestedSites p).cons

theorem nestedSites_arguments : ∀ (arguments : List Expr) (p : Position),
    NestedSites p (sitesInArguments p arguments)
  | [], p => .nil p
  | argument :: rest, p => (argument.nestedSites p).append (nestedSites_arguments rest p)

theorem Function.nestedSites : ∀ (f : Function) (p : Position), NestedSites p (f.sites p)
  | .mk params body, p => by
    refine (nestedSites_body body (p.enter (.function (.mk params body)) _)).enter ?_
    rintro f ⟨⟩ x hx
    exact hx

theorem NamedFunction.nestedSites : ∀ (f : NamedFunction) (p : Position),
    NestedSites p (f.sites p)
  | .mk _ function, p => function.nestedSites p

theorem nestedSites_methods : ∀ (methods : List NamedFunction) (p : Position),
    NestedSites p (sitesInMethods p methods)
  | [], p => .nil p
  | method :: rest, p => (method.nestedSites p).append (nestedSites_methods rest p)

theorem Stmt.nestedSites : ∀ (s : Stmt) (p : Position), NestedSites p (s.sites p)
  | .expression value, p => (value.nestedSites p).cons
  | .print value, p => (value.nestedSites p).cons
  | .varDecl _ none, p => nestedSites_singleton p _
  | .varDecl name (some initial), p =>
    ((initial.nestedSites (p.within name.text)).alike (p.alike_within name.text)).cons
  | .block body, p => ((nestedSites_body body (p.enter (.block body) [])).enter nofun).cons
  | .ifThen condition thenBranch none, p =>
    ((condition.nestedSites p).append (thenBranch.nestedSites p)).cons
  | .ifThen condition thenBranch (some elseBranch), p =>
    (((condition.nestedSites p).append (thenBranch.nestedSites p)).append
      (elseBranch.nestedSites p)).cons
  | .whileDo condition body, p => ((condition.nestedSites p).append (body.nestedSites p)).cons
  | .breakLoop _, p => nestedSites_singleton p _
  | .returnWith _ none, p => nestedSites_singleton p _
  | .returnWith _ (some value), p => (value.nestedSites p).cons
  | .funDecl declared, p =>
    ((declared.nestedSites (p.declare declared.name.text)).alike
      (p.alike_declare declared.name.text)).cons
  | .classDecl name superclass traits methods classMethods, p => by
    refine (((nestedSites_readSites (p.within name.text) _).alike
      (p.alike_within name.text)).append ?_ |>.append ?_).cons
    · exact (nestedSites_methods methods _).of_methods
    · exact (nestedSites_methods classMethods _).of_methods
  | .traitDecl name traits methods, p =>
    (((nestedSites_readSites (p.within name.text) traits).alike
      (p.alike_within name.text)).append (nestedSites_methods methods _).of_methods).cons

theorem nestedSites_body : ∀ (body : List Stmt) (p : Position),
    NestedSites p (sitesInBody p body)
  | [], p => .nil p
  | statement :: rest, p =>
    (statement.nestedSites p).append
      ((nestedSites_body rest (p.after statement)).alike (p.alike_after statement))

end

/-- Where a scope around a site of a program is that of a function, the site is one of that. -/
theorem enclosed_of_program {program : List Stmt} {p : Position} {moment : Moment}
    (site : ⟨p, moment⟩ ∈ sitesInBody [] program) {before after : Position} {layer : Layer}
    {f : Function} (hp : p = before ++ layer :: after) (hlayer : layer.region = .function f) :
    ⟨p, moment⟩ ∈ f.sites after :=
  (nestedSites_body program [] _ site).enclosed before layer after f hp hlayer (Nat.zero_le _)

end LoxLang
