import LoxLang.Proofs.Tree.Relabelling

/-!
# Trees in another code

Besides the labels of a tree, some of its names may say nothing of what it does: those of local
variables, which are reached by their bindings. A recoding gives other labels to a tree and, within
the scopes of the tree, other names to the variables and to their occurrences. Outside of all scopes
are the globals, which are reached by name.
-/

namespace LoxLang

/-- Other lines and references, and for what stands in a scope other names of variables and of their
occurrences. -/
structure Recoding extends Relabelling where
  word : RefId → String → String
  name : String → String

/-- A relabelling keeps all names. -/
def Relabelling.plain (ρ : Relabelling) : Recoding :=
  { ρ with
    word := fun _ text => text
    name := fun text => text }

variable (ρ : Recoding)

/-- The text of an occurrence, which stands in a scope or outside of all scopes. -/
def Recoding.referred (inside : Bool) (id : RefId) (text : String) : String :=
  if inside then ρ.word id text else text

/-- The name of a variable that is declared in a scope or outside of all scopes. -/
def Recoding.declared (inside : Bool) (text : String) : String :=
  if inside then ρ.name text else text

def Reference.recode (inside : Bool) (ref : Reference) : Reference :=
  ⟨ρ.id ref.id, ⟨ρ.referred inside ref.id ref.name.text, ρ.line ref.name.line⟩⟩

/-- The name of a variable in another code. The names of functions, classes, traits and properties
have other lines only. -/
def Name.recode (inside : Bool) (n : Name) : Name :=
  ⟨ρ.declared inside n.text, ρ.line n.line⟩

mutual

/-- An expression in another code. -/
@[simp] def Expr.recode (inside : Bool) : Expr → Expr
  | .literal value => .literal value
  | .unary op line operand => .unary op (ρ.line line) (operand.recode inside)
  | .binary left op line right =>
    .binary (left.recode inside) op (ρ.line line) (right.recode inside)
  | .logical left op line right =>
    .logical (left.recode inside) op (ρ.line line) (right.recode inside)
  | .conditional condition thenBranch elseBranch =>
    .conditional (condition.recode inside) (thenBranch.recode inside) (elseBranch.recode inside)
  | .grouping inner => .grouping (inner.recode inside)
  | .variable ref => .variable (ref.recode ρ inside)
  | .assign ref value => .assign (ref.recode ρ inside) (value.recode inside)
  | .call callee arguments line =>
    .call (callee.recode inside) (recodeArguments inside arguments) (ρ.line line)
  | .get object name => .get (object.recode inside) (name.relabel ρ.toRelabelling)
  | .set object name value =>
    .set (object.recode inside) (name.relabel ρ.toRelabelling) (value.recode inside)
  | .this id line => .this (ρ.id id) (ρ.line line)
  | .super id line method => .super (ρ.id id) (ρ.line line) (method.relabel ρ.toRelabelling)
  | .lambda line function => .lambda (ρ.line line) function.recode

/-- Arguments in another code. -/
@[simp] def recodeArguments (inside : Bool) : List Expr → List Expr
  | [] => []
  | argument :: rest => argument.recode inside :: recodeArguments inside rest

/-- A function in another code: its parameters and its body stand in its scope. -/
@[simp] def Function.recode : Function → Function
  | .mk params body => .mk (params.map (Name.recode ρ true)) (recodeBody true body)

/-- A function with a name in another code. -/
@[simp] def NamedFunction.recode : NamedFunction → NamedFunction
  | .mk name function => .mk (name.relabel ρ.toRelabelling) function.recode

/-- Methods in another code. -/
@[simp] def recodeMethods : List NamedFunction → List NamedFunction
  | [] => []
  | method :: rest => method.recode :: recodeMethods rest

/-- A statement in another code. -/
@[simp] def Stmt.recode (inside : Bool) : Stmt → Stmt
  | .expression value => .expression (value.recode inside)
  | .print value => .print (value.recode inside)
  | .varDecl name none => .varDecl (name.recode ρ inside) none
  | .varDecl name (some initial) =>
    .varDecl (name.recode ρ inside) (some (initial.recode inside))
  | .block body => .block (recodeBody true body)
  | .ifThen condition thenBranch none =>
    .ifThen (condition.recode inside) (thenBranch.recode inside) none
  | .ifThen condition thenBranch (some elseBranch) =>
    .ifThen (condition.recode inside) (thenBranch.recode inside)
      (some (elseBranch.recode inside))
  | .whileDo condition body => .whileDo (condition.recode inside) (body.recode inside)
  | .breakLoop line => .breakLoop (ρ.line line)
  | .returnWith line none => .returnWith (ρ.line line) none
  | .returnWith line (some value) => .returnWith (ρ.line line) (some (value.recode inside))
  | .funDecl declared => .funDecl declared.recode
  | .classDecl name superclass traits methods classMethods =>
    .classDecl (name.relabel ρ.toRelabelling) (superclass.map (Reference.recode ρ inside))
      (traits.map (Reference.recode ρ inside)) (recodeMethods methods)
      (recodeMethods classMethods)
  | .traitDecl name traits methods =>
    .traitDecl (name.relabel ρ.toRelabelling) (traits.map (Reference.recode ρ inside))
      (recodeMethods methods)

/-- Statements in another code. -/
@[simp] def recodeBody (inside : Bool) : List Stmt → List Stmt
  | [] => []
  | statement :: rest => statement.recode inside :: recodeBody inside rest

end

theorem recodeArguments_eq_map (inside : Bool) (arguments : List Expr) :
    recodeArguments ρ inside arguments = arguments.map (Expr.recode ρ inside) := by
  induction arguments with
  | nil => simp [recodeArguments]
  | cons argument rest ih => simp [recodeArguments, ih]

theorem recodeMethods_eq_map (methods : List NamedFunction) :
    recodeMethods ρ methods = methods.map (NamedFunction.recode ρ) := by
  induction methods with
  | nil => simp [recodeMethods]
  | cons method rest ih => simp [recodeMethods, ih]

theorem recodeBody_eq_map (inside : Bool) (body : List Stmt) :
    recodeBody ρ inside body = body.map (Stmt.recode ρ inside) := by
  induction body with
  | nil => simp [recodeBody]
  | cons statement rest ih => simp [recodeBody, ih]

@[simp] theorem Function.recode_body (f : Function) :
    (f.recode ρ).body = f.body.map (Stmt.recode ρ true) := by
  cases f
  simp only [Function.recode, Function.body, recodeBody_eq_map]

@[simp] theorem Function.recode_arity (f : Function) : (f.recode ρ).arity = f.arity := by
  cases f
  simp [Function.recode, Function.arity, Function.params]

@[simp] theorem NamedFunction.recode_name (f : NamedFunction) :
    (f.recode ρ).name = f.name.relabel ρ.toRelabelling := by
  cases f
  simp only [NamedFunction.recode, NamedFunction.name]

@[simp] theorem NamedFunction.recode_function (f : NamedFunction) :
    (f.recode ρ).function = f.function.recode ρ := by
  cases f
  simp only [NamedFunction.recode, NamedFunction.function]

/-! ## Other labels alone -/

section

variable (ρ : Relabelling)

theorem Reference.recode_plain (inside : Bool) (ref : Reference) :
    ref.recode ρ.plain inside = ref.relabel ρ := by
  cases inside <;> rfl

theorem Name.recode_plain (inside : Bool) (n : Name) : n.recode ρ.plain inside = n.relabel ρ := by
  cases inside <;> rfl

mutual

theorem Expr.recode_plain : ∀ (e : Expr) (inside : Bool), e.recode ρ.plain inside = e.relabel ρ
  | .literal _, _ => rfl
  | .unary _ _ operand, inside => by
    simp only [Expr.recode, Expr.relabel, operand.recode_plain]
    rfl
  | .binary left _ _ right, inside => by
    simp only [Expr.recode, Expr.relabel, left.recode_plain, right.recode_plain]
    rfl
  | .logical left _ _ right, inside => by
    simp only [Expr.recode, Expr.relabel, left.recode_plain, right.recode_plain]
    rfl
  | .conditional condition thenBranch elseBranch, inside => by
    simp only [Expr.recode, Expr.relabel, condition.recode_plain, thenBranch.recode_plain,
      elseBranch.recode_plain]
  | .grouping inner, inside => by simp only [Expr.recode, Expr.relabel, inner.recode_plain]
  | .variable ref, inside => by simp only [Expr.recode, Expr.relabel, ref.recode_plain]
  | .assign ref value, inside => by
    simp only [Expr.recode, Expr.relabel, ref.recode_plain, value.recode_plain]
  | .call callee arguments _, inside => by
    simp only [Expr.recode, Expr.relabel, callee.recode_plain, recodeArguments_plain arguments]
    rfl
  | .get object _, inside => by
    simp only [Expr.recode, Expr.relabel, object.recode_plain]
    rfl
  | .set object _ value, inside => by
    simp only [Expr.recode, Expr.relabel, object.recode_plain, value.recode_plain]
    rfl
  | .this _ _, _ => rfl
  | .super _ _ _, _ => rfl
  | .lambda _ function, inside => by
    simp only [Expr.recode, Expr.relabel, function.recode_plain]
    rfl

theorem recodeArguments_plain : ∀ (arguments : List Expr) (inside : Bool),
    recodeArguments ρ.plain inside arguments = relabelArguments ρ arguments
  | [], _ => rfl
  | argument :: rest, inside => by
    simp only [recodeArguments, relabelArguments, argument.recode_plain,
      recodeArguments_plain rest]

theorem Function.recode_plain : ∀ f : Function, f.recode ρ.plain = f.relabel ρ
  | .mk params body => by
    simp only [Function.recode, Function.relabel, recodeBody_plain body]
    rfl

theorem NamedFunction.recode_plain : ∀ f : NamedFunction, f.recode ρ.plain = f.relabel ρ
  | .mk _ function => by
    simp only [NamedFunction.recode, NamedFunction.relabel, function.recode_plain]
    rfl

theorem recodeMethods_plain : ∀ methods : List NamedFunction,
    recodeMethods ρ.plain methods = relabelMethods ρ methods
  | [] => rfl
  | method :: rest => by
    simp only [recodeMethods, relabelMethods, method.recode_plain, recodeMethods_plain rest]

theorem Stmt.recode_plain : ∀ (s : Stmt) (inside : Bool), s.recode ρ.plain inside = s.relabel ρ
  | .expression value, inside => by simp only [Stmt.recode, Stmt.relabel, value.recode_plain]
  | .print value, inside => by simp only [Stmt.recode, Stmt.relabel, value.recode_plain]
  | .varDecl name none, inside => by simp only [Stmt.recode, Stmt.relabel, name.recode_plain]
  | .varDecl name (some initial), inside => by
    simp only [Stmt.recode, Stmt.relabel, name.recode_plain, initial.recode_plain]
  | .block body, _ => by simp only [Stmt.recode, Stmt.relabel, recodeBody_plain body]
  | .ifThen condition thenBranch none, inside => by
    simp only [Stmt.recode, Stmt.relabel, condition.recode_plain, thenBranch.recode_plain]
  | .ifThen condition thenBranch (some elseBranch), inside => by
    simp only [Stmt.recode, Stmt.relabel, condition.recode_plain, thenBranch.recode_plain,
      elseBranch.recode_plain]
  | .whileDo condition body, inside => by
    simp only [Stmt.recode, Stmt.relabel, condition.recode_plain, body.recode_plain]
  | .breakLoop _, _ => rfl
  | .returnWith _ none, _ => rfl
  | .returnWith _ (some value), inside => by
    simp only [Stmt.recode, Stmt.relabel, value.recode_plain]
    rfl
  | .funDecl declared, _ => by simp only [Stmt.recode, Stmt.relabel, declared.recode_plain]
  | .classDecl _ _ _ methods classMethods, inside => by
    have hreference : Reference.recode ρ.plain inside = Reference.relabel ρ :=
      funext fun ref => ref.recode_plain ρ inside
    simp only [Stmt.recode, Stmt.relabel, hreference, recodeMethods_plain methods,
      recodeMethods_plain classMethods]
    rfl
  | .traitDecl _ _ methods, inside => by
    have hreference : Reference.recode ρ.plain inside = Reference.relabel ρ :=
      funext fun ref => ref.recode_plain ρ inside
    simp only [Stmt.recode, Stmt.relabel, hreference, recodeMethods_plain methods]
    rfl

theorem recodeBody_plain : ∀ (body : List Stmt) (inside : Bool),
    recodeBody ρ.plain inside body = relabelBody ρ body
  | [], _ => rfl
  | statement :: rest, inside => by
    simp only [recodeBody, relabelBody, statement.recode_plain, recodeBody_plain rest]

end

end

end LoxLang
