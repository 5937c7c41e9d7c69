import LoxLang.Tree.Basic

/-!
# Trees of readable texts

Not every tree can be read from a text. In one that can, no branch of an `if` and no body of a
loop is itself a declaration, no name is the word `this` or `super`, and no `break` in a function
is meant for a loop outside of it.
-/

namespace LoxLang

/-- What would be said to be the name of a superclass or trait that is written in another form
than a name. -/
def placeholderName : String := "<expression>"

/-- A name that can stand in a program. -/
def Name.Plain (n : Name) : Prop :=
  n.text ≠ thisName ∧ n.text ≠ superName ∧ n.text ≠ placeholderName

/-- A plain name is not declared implicitly. -/
theorem Name.Plain.explicit {n : Name} (h : n.Plain) : n.text ≠ thisName ∧ n.text ≠ superName :=
  ⟨h.1, h.2.1⟩

/-- A variable with a name that can stand in a program. -/
def Reference.Plain (ref : Reference) : Prop :=
  ref.name.Plain

/-- The name that a statement declares in the scope it stands in. -/
def Stmt.declared? : Stmt → Option Name
  | .varDecl name _ => some name
  | .funDecl declared => some declared.name
  | .classDecl name .. => some name
  | .traitDecl name .. => some name
  | _ => none

/-- A part of a statement is a `break` for a loop around the statement. -/
inductive Stmt.Breaks : Stmt → Prop
  | here {line : Nat} : Breaks (.breakLoop line)
  | block {body : List Stmt} {s : Stmt} (mem : s ∈ body) (h : Breaks s) : Breaks (.block body)
  | thenBranch {condition : Expr} {s : Stmt} {other : Option Stmt} (h : Breaks s) :
      Breaks (.ifThen condition s other)
  | elseBranch {condition : Expr} {other s : Stmt} (h : Breaks s) :
      Breaks (.ifThen condition other (some s))

/-- A part of a statement is a `return` from a function around the statement. -/
inductive Stmt.Returns : Stmt → Prop
  | here {line : Nat} {value : Option Expr} : Returns (.returnWith line value)
  | block {body : List Stmt} {s : Stmt} (mem : s ∈ body) (h : Returns s) : Returns (.block body)
  | thenBranch {condition : Expr} {s : Stmt} {other : Option Stmt} (h : Returns s) :
      Returns (.ifThen condition s other)
  | elseBranch {condition : Expr} {other s : Stmt} (h : Returns s) :
      Returns (.ifThen condition other (some s))
  | loop {condition : Expr} {s : Stmt} (h : Returns s) : Returns (.whileDo condition s)

mutual

/-- Expressions that can be read from a text. -/
def Expr.Formed : Expr → Prop
  | .literal _ => True
  | .unary _ _ operand => operand.Formed
  | .binary left _ _ right => left.Formed ∧ right.Formed
  | .logical left _ _ right => left.Formed ∧ right.Formed
  | .conditional condition thenBranch elseBranch =>
    condition.Formed ∧ thenBranch.Formed ∧ elseBranch.Formed
  | .grouping inner => inner.Formed
  | .variable ref => ref.Plain
  | .assign ref value => ref.Plain ∧ value.Formed
  | .call callee arguments _ => callee.Formed ∧ FormedArguments arguments
  | .get object _ => object.Formed
  | .set object _ value => object.Formed ∧ value.Formed
  | .this _ _ => True
  | .super _ _ _ => True
  | .lambda _ function => function.Formed

/-- Arguments that can be read from a text. -/
def FormedArguments : List Expr → Prop
  | [] => True
  | argument :: rest => argument.Formed ∧ FormedArguments rest

/-- Functions that can be read from a text. -/
def Function.Formed : Function → Prop
  | .mk params body =>
    (∀ param ∈ params, param.Plain) ∧ (∀ s ∈ body, ¬s.Breaks) ∧ FormedBody body

/-- Functions with names that can be read from a text. -/
def NamedFunction.Formed : NamedFunction → Prop
  | .mk name function => name.Plain ∧ function.Formed

/-- Methods that can be read from a text. -/
def FormedMethods : List NamedFunction → Prop
  | [] => True
  | method :: rest => method.Formed ∧ FormedMethods rest

/-- Statements that can be read from a text. -/
def Stmt.Formed : Stmt → Prop
  | .expression value => value.Formed
  | .print value => value.Formed
  | .varDecl name none => name.Plain
  | .varDecl name (some initial) => name.Plain ∧ initial.Formed
  | .block body => FormedBody body
  | .ifThen condition thenBranch none =>
    condition.Formed ∧ thenBranch.Formed ∧ thenBranch.declared? = none
  | .ifThen condition thenBranch (some elseBranch) =>
    condition.Formed ∧ thenBranch.Formed ∧ thenBranch.declared? = none ∧
      elseBranch.Formed ∧ elseBranch.declared? = none
  | .whileDo condition body => condition.Formed ∧ body.Formed ∧ body.declared? = none
  | .breakLoop _ => True
  | .returnWith _ none => True
  | .returnWith _ (some value) => value.Formed
  | .funDecl declared => declared.Formed
  | .classDecl name superclass traits methods classMethods =>
    name.Plain ∧ (∀ ref ∈ superclass.toList ++ traits, ref.Plain) ∧ FormedMethods methods ∧
      FormedMethods classMethods
  | .traitDecl name traits methods =>
    name.Plain ∧ (∀ ref ∈ traits, ref.Plain) ∧ FormedMethods methods

/-- Lists of statements that can be read from a text. -/
def FormedBody : List Stmt → Prop
  | [] => True
  | statement :: rest => statement.Formed ∧ FormedBody rest

end

theorem formedMethods_iff {methods : List NamedFunction} :
    FormedMethods methods ↔ ∀ method ∈ methods, method.Formed := by
  induction methods with
  | nil => simp [FormedMethods]
  | cons method rest ih => simp [FormedMethods, ih]

theorem formedArguments_iff {arguments : List Expr} :
    FormedArguments arguments ↔ ∀ argument ∈ arguments, argument.Formed := by
  induction arguments with
  | nil => simp [FormedArguments]
  | cons argument rest ih => simp [FormedArguments, ih]

theorem Function.Formed.params {f : Function} (h : f.Formed) :
    ∀ param ∈ f.params, param.Plain := by
  obtain ⟨params, body⟩ := f
  exact h.1

/-- No `break` of a function is meant for a loop outside of it. -/
theorem Function.Formed.unbroken {f : Function} (h : f.Formed) : ∀ s ∈ f.body, ¬s.Breaks := by
  obtain ⟨params, body⟩ := f
  exact h.2.1

theorem Function.Formed.body {f : Function} (h : f.Formed) : FormedBody f.body := by
  obtain ⟨params, body⟩ := f
  exact h.2.2

theorem NamedFunction.Formed.function {f : NamedFunction} (h : f.Formed) :
    f.function.Formed := by
  obtain ⟨name, function⟩ := f
  exact h.2

theorem Stmt.Formed.declared {s : Stmt} (h : s.Formed) {name : Name}
    (hname : s.declared? = some name) : name.Plain := by
  cases s with
  | varDecl n initial =>
    simp only [declared?, Option.some.injEq] at hname
    subst hname
    cases initial with
    | none => exact h
    | some e => exact h.1
  | funDecl declared =>
    obtain ⟨n, function⟩ := declared
    simp only [declared?, NamedFunction.name, Option.some.injEq] at hname
    subst hname
    exact h.1
  | classDecl n superclass traits methods classMethods =>
    simp only [declared?, Option.some.injEq] at hname
    subst hname
    exact h.1
  | traitDecl n traits methods =>
    simp only [declared?, Option.some.injEq] at hname
    subst hname
    exact h.1
  | _ => simp [declared?] at hname

end LoxLang
