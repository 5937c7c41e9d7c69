import LoxLang.Tree.Basic

/-!
# Trees with other labels

The lines and references of a tree are labels: they say where a text has it and which occurrence
is which, and nothing of what it does. A relabelling gives other labels to all of them.
-/

namespace LoxLang

/-- Other lines and other references. -/
structure Relabelling where
  line : Nat → Nat
  id : RefId → RefId

variable (ρ : Relabelling)

def Token.relabel (t : Token) : Token :=
  { t with line := ρ.line t.line }

def Name.relabel (n : Name) : Name :=
  { n with line := ρ.line n.line }

def Reference.relabel (ref : Reference) : Reference :=
  ⟨ρ.id ref.id, ref.name.relabel ρ⟩

mutual

/-- An expression with other labels. -/
@[simp] def Expr.relabel : Expr → Expr
  | .literal value => .literal value
  | .unary op line operand => .unary op (ρ.line line) operand.relabel
  | .binary left op line right => .binary left.relabel op (ρ.line line) right.relabel
  | .logical left op line right => .logical left.relabel op (ρ.line line) right.relabel
  | .conditional condition thenBranch elseBranch =>
    .conditional condition.relabel thenBranch.relabel elseBranch.relabel
  | .grouping inner => .grouping inner.relabel
  | .variable ref => .variable (ref.relabel ρ)
  | .assign ref value => .assign (ref.relabel ρ) value.relabel
  | .call callee arguments line =>
    .call callee.relabel (relabelArguments arguments) (ρ.line line)
  | .get object name => .get object.relabel (name.relabel ρ)
  | .set object name value => .set object.relabel (name.relabel ρ) value.relabel
  | .this id line => .this (ρ.id id) (ρ.line line)
  | .super id line method => .super (ρ.id id) (ρ.line line) (method.relabel ρ)
  | .lambda line function => .lambda (ρ.line line) function.relabel

/-- Arguments with other labels. -/
@[simp] def relabelArguments : List Expr → List Expr
  | [] => []
  | argument :: rest => argument.relabel :: relabelArguments rest

/-- A function with other labels. -/
@[simp] def Function.relabel : Function → Function
  | .mk params body => .mk (params.map (Name.relabel ρ)) (relabelBody body)

/-- A function with a name, with other labels. -/
@[simp] def NamedFunction.relabel : NamedFunction → NamedFunction
  | .mk name function => .mk (name.relabel ρ) function.relabel

/-- Methods with other labels. -/
@[simp] def relabelMethods : List NamedFunction → List NamedFunction
  | [] => []
  | method :: rest => method.relabel :: relabelMethods rest

/-- A statement with other labels. -/
@[simp] def Stmt.relabel : Stmt → Stmt
  | .expression value => .expression value.relabel
  | .print value => .print value.relabel
  | .varDecl name none => .varDecl (name.relabel ρ) none
  | .varDecl name (some initial) => .varDecl (name.relabel ρ) (some initial.relabel)
  | .block body => .block (relabelBody body)
  | .ifThen condition thenBranch none => .ifThen condition.relabel thenBranch.relabel none
  | .ifThen condition thenBranch (some elseBranch) =>
    .ifThen condition.relabel thenBranch.relabel (some elseBranch.relabel)
  | .whileDo condition body => .whileDo condition.relabel body.relabel
  | .breakLoop line => .breakLoop (ρ.line line)
  | .returnWith line none => .returnWith (ρ.line line) none
  | .returnWith line (some value) => .returnWith (ρ.line line) (some value.relabel)
  | .funDecl declared => .funDecl declared.relabel
  | .classDecl name superclass traits methods classMethods =>
    .classDecl (name.relabel ρ) (superclass.map (Reference.relabel ρ))
      (traits.map (Reference.relabel ρ)) (relabelMethods methods) (relabelMethods classMethods)
  | .traitDecl name traits methods =>
    .traitDecl (name.relabel ρ) (traits.map (Reference.relabel ρ)) (relabelMethods methods)

/-- Statements with other labels. -/
@[simp] def relabelBody : List Stmt → List Stmt
  | [] => []
  | statement :: rest => statement.relabel :: relabelBody rest

end

theorem relabelArguments_eq_map (arguments : List Expr) :
    relabelArguments ρ arguments = arguments.map (Expr.relabel ρ) := by
  induction arguments with
  | nil => simp [relabelArguments]
  | cons argument rest ih => simp [relabelArguments, ih]

theorem relabelMethods_eq_map (methods : List NamedFunction) :
    relabelMethods ρ methods = methods.map (NamedFunction.relabel ρ) := by
  induction methods with
  | nil => simp [relabelMethods]
  | cons method rest ih => simp [relabelMethods, ih]

theorem relabelBody_eq_map (body : List Stmt) :
    relabelBody ρ body = body.map (Stmt.relabel ρ) := by
  induction body with
  | nil => simp [relabelBody]
  | cons statement rest ih => simp [relabelBody, ih]

@[simp] theorem NamedFunction.relabel_name (f : NamedFunction) :
    (f.relabel ρ).name = f.name.relabel ρ := by
  cases f
  simp only [NamedFunction.relabel, NamedFunction.name]

end LoxLang
