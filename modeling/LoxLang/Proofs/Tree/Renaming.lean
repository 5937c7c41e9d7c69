import LoxLang.Tree.Basic

/-!
# Trees with another name for a variable

A renaming gives another name to one parameter or one `var` of a scope: to its declaration and to
the occurrences that denote it by the rule of lexical scoping, which are those of its name whose
innermost scope with a declaration of that name is the scope of the variable. Nothing else changes
in the tree. The variable is given by its name and by the position of its declaration among all
names of the tree.
-/

namespace LoxLang

/-! ## The names of a tree -/

mutual

/-- The names that occur in an expression. -/
def Expr.names : Expr → List String
  | .literal _ => []
  | .unary _ _ operand => operand.names
  | .binary left _ _ right => left.names ++ right.names
  | .logical left _ _ right => left.names ++ right.names
  | .conditional condition thenBranch elseBranch =>
    condition.names ++ thenBranch.names ++ elseBranch.names
  | .grouping inner => inner.names
  | .variable ref => [ref.name.text]
  | .assign ref value => ref.name.text :: value.names
  | .call callee arguments _ => callee.names ++ namesInArguments arguments
  | .get object name => object.names ++ [name.text]
  | .set object name value => object.names ++ name.text :: value.names
  | .this _ _ => []
  | .super _ _ method => [method.text]
  | .lambda _ function => function.names

/-- The names that occur in the arguments of a call. -/
def namesInArguments : List Expr → List String
  | [] => []
  | argument :: rest => argument.names ++ namesInArguments rest

/-- The names that occur in a function, those of its parameters among them. -/
def Function.names : Function → List String
  | .mk params body => params.map Name.text ++ namesInBody body

/-- The names that occur in a function with a name. -/
def NamedFunction.names : NamedFunction → List String
  | .mk name function => name.text :: function.names

/-- The names that occur in the methods of a class or trait. -/
def namesInMethods : List NamedFunction → List String
  | [] => []
  | method :: rest => method.names ++ namesInMethods rest

/-- The names that occur in a statement. -/
def Stmt.names : Stmt → List String
  | .expression value => value.names
  | .print value => value.names
  | .varDecl name none => [name.text]
  | .varDecl name (some initial) => name.text :: initial.names
  | .block body => namesInBody body
  | .ifThen condition thenBranch none => condition.names ++ thenBranch.names
  | .ifThen condition thenBranch (some elseBranch) =>
    condition.names ++ thenBranch.names ++ elseBranch.names
  | .whileDo condition body => condition.names ++ body.names
  | .breakLoop _ => []
  | .returnWith _ none => []
  | .returnWith _ (some value) => value.names
  | .funDecl declared => declared.names
  | .classDecl name superclass traits methods classMethods =>
    name.text :: superclass.toList.map (·.name.text) ++ traits.map (·.name.text) ++
      namesInMethods methods ++ namesInMethods classMethods
  | .traitDecl name traits methods =>
    name.text :: traits.map (·.name.text) ++ namesInMethods methods

/-- The names that occur in statements, one after the other. -/
def namesInBody : List Stmt → List String
  | [] => []
  | statement :: rest => statement.names ++ namesInBody rest

end

/-! ## Renamings -/

/-- Another name for the variable whose declaration stands at a position. The words `this` and
`super` are no names of variables. -/
structure Renaming where
  position : Nat
  old : String
  new : String
  old_explicit : old ≠ thisName ∧ old ≠ superName
  new_explicit : new ≠ thisName ∧ new ≠ superName

/-- What a scope has declared by the old name up to some place: nothing, the renamed variable, or
something else of that name. -/
inductive Holding
  | nothing
  | renamed
  | other
deriving DecidableEq

/-- The old name denotes the renamed variable: the innermost scope that has declared the name is
that of the variable. -/
def denotesRenamed : List Holding → Bool
  | [] => false
  | .nothing :: outer => denotesRenamed outer
  | .renamed :: _ => true
  | .other :: _ => false

namespace Renaming

variable (ρ : Renaming)

/-- A name as it is written after the renaming. -/
def written (around : List Holding) (text : String) : String :=
  if text = ρ.old ∧ denotesRenamed around then ρ.new else text

/-- What a scope holds behind a declaration, which may be that of the renamed variable. -/
def hold (chosen : Bool) (name : String) (holding : Holding) : Holding :=
  if name = ρ.old then if chosen then .renamed else .other else holding

/-- A name is declared in the innermost scope. Outside of all scopes it is a global. -/
def declare (chosen : Bool) (name : String) : List Holding → List Holding
  | [] => []
  | holding :: outer => ρ.hold chosen name holding :: outer

/-- A variable is declared by the name at a position. -/
def declareVariable (position : Nat) (name : Name) (around : List Holding) : List Holding :=
  ρ.declare (position = ρ.position) name.text around

/-- Parameters are declared by the names from a position on. -/
def declareParameters : Nat → List Name → List Holding → List Holding
  | _, [], around => around
  | position, param :: rest, around =>
    declareParameters (position + 1) rest (ρ.declareVariable position param around)

end Renaming

variable (ρ : Renaming)

def Name.rename (around : List Holding) (name : Name) : Name :=
  { name with text := ρ.written around name.text }

/-- A global keeps its name. -/
theorem Name.rename_nil (name : Name) : name.rename ρ [] = name := by
  simp [Name.rename, Renaming.written, denotesRenamed]

def Reference.rename (around : List Holding) (ref : Reference) : Reference :=
  { ref with name := ref.name.rename ρ around }

/-- Parameters with the other name, each in the scope that has declared it. -/
def renameParameters : Nat → List Name → List Holding → List Name
  | _, [], _ => []
  | position, param :: rest, around =>
    let around := ρ.declareVariable position param around
    param.rename ρ around :: renameParameters (position + 1) rest around

/-- The scopes around the methods of a class or trait. -/
def holdingsOfMethods (name : Name) (derived : Bool) (around : List Holding) : List Holding :=
  let around := ρ.declare false name.text around
  .nothing :: if derived then .nothing :: around else around

/-- The scopes behind a statement whose names begin at a position. -/
def Stmt.behind (position : Nat) (s : Stmt) (around : List Holding) : List Holding :=
  match s with
  | .varDecl name _ => ρ.declareVariable position name around
  | .ifThen condition thenBranch none =>
    thenBranch.behind (position + condition.names.length) around
  | .ifThen condition thenBranch (some elseBranch) =>
    elseBranch.behind (position + condition.names.length + thenBranch.names.length)
      (thenBranch.behind (position + condition.names.length) around)
  | .whileDo condition body => body.behind (position + condition.names.length) around
  | .funDecl declared => ρ.declare false declared.name.text around
  | .classDecl name _ _ _ _ => ρ.declare false name.text around
  | .traitDecl name _ _ => ρ.declare false name.text around
  | _ => around

mutual

/-- An expression with the other name, with the scopes around it and the position of its first
name. -/
def Expr.rename (around : List Holding) (position : Nat) : Expr → Expr
  | .literal value => .literal value
  | .unary op line operand => .unary op line (operand.rename around position)
  | .binary left op line right =>
    .binary (left.rename around position) op line
      (right.rename around (position + left.names.length))
  | .logical left op line right =>
    .logical (left.rename around position) op line
      (right.rename around (position + left.names.length))
  | .conditional condition thenBranch elseBranch =>
    .conditional (condition.rename around position)
      (thenBranch.rename around (position + condition.names.length))
      (elseBranch.rename around (position + condition.names.length + thenBranch.names.length))
  | .grouping inner => .grouping (inner.rename around position)
  | .variable ref => .variable (ref.rename ρ around)
  | .assign ref value => .assign (ref.rename ρ around) (value.rename around (position + 1))
  | .call callee arguments line =>
    .call (callee.rename around position)
      (renameArguments around (position + callee.names.length) arguments) line
  | .get object name => .get (object.rename around position) name
  | .set object name value =>
    .set (object.rename around position) name
      (value.rename around (position + object.names.length + 1))
  | .this id line => .this id line
  | .super id line method => .super id line method
  | .lambda line function => .lambda line (function.rename around position)

/-- Arguments with the other name. -/
def renameArguments (around : List Holding) (position : Nat) : List Expr → List Expr
  | [] => []
  | argument :: rest =>
    argument.rename around position ::
      renameArguments around (position + argument.names.length) rest

/-- A function with the other name: its parameters and its body share a scope. -/
def Function.rename (around : List Holding) (position : Nat) : Function → Function
  | .mk params body =>
    .mk (renameParameters ρ position params (.nothing :: around))
      (renameBody (ρ.declareParameters position params (.nothing :: around))
        (position + params.length) body)

/-- A function with a name, with the other name in it. -/
def NamedFunction.rename (around : List Holding) (position : Nat) : NamedFunction → NamedFunction
  | .mk name function => .mk name (function.rename around (position + 1))

/-- Methods with the other name. -/
def renameMethods (around : List Holding) (position : Nat) :
    List NamedFunction → List NamedFunction
  | [] => []
  | method :: rest =>
    method.rename around position ::
      renameMethods around (position + method.names.length) rest

/-- A statement with the other name. -/
def Stmt.rename (around : List Holding) (position : Nat) : Stmt → Stmt
  | .expression value => .expression (value.rename around position)
  | .print value => .print (value.rename around position)
  | .varDecl name none =>
    .varDecl (name.rename ρ (ρ.declareVariable position name around)) none
  | .varDecl name (some initial) =>
    .varDecl (name.rename ρ (ρ.declareVariable position name around))
      (some (initial.rename (ρ.declareVariable position name around) (position + 1)))
  | .block body => .block (renameBody (.nothing :: around) position body)
  | .ifThen condition thenBranch none =>
    .ifThen (condition.rename around position)
      (thenBranch.rename around (position + condition.names.length)) none
  | .ifThen condition thenBranch (some elseBranch) =>
    .ifThen (condition.rename around position)
      (thenBranch.rename around (position + condition.names.length))
      (some (elseBranch.rename
        (thenBranch.behind ρ (position + condition.names.length) around)
        (position + condition.names.length + thenBranch.names.length)))
  | .whileDo condition body =>
    .whileDo (condition.rename around position)
      (body.rename around (position + condition.names.length))
  | .breakLoop line => .breakLoop line
  | .returnWith line none => .returnWith line none
  | .returnWith line (some value) => .returnWith line (some (value.rename around position))
  | .funDecl declared =>
    .funDecl (declared.rename (ρ.declare false declared.name.text around) position)
  | .classDecl name superclass traits methods classMethods =>
    let inside := ρ.declare false name.text around
    let ofMethods := holdingsOfMethods ρ name superclass.isSome around
    let first := position + 1 + superclass.toList.length + traits.length
    .classDecl name (superclass.map (Reference.rename ρ inside))
      (traits.map (Reference.rename ρ inside)) (renameMethods ofMethods first methods)
      (renameMethods ofMethods (first + (namesInMethods methods).length) classMethods)
  | .traitDecl name traits methods =>
    .traitDecl name (traits.map (Reference.rename ρ (ρ.declare false name.text around)))
      (renameMethods (holdingsOfMethods ρ name false around) (position + 1 + traits.length)
        methods)

/-- Statements with the other name, one after the other. -/
def renameBody (around : List Holding) (position : Nat) : List Stmt → List Stmt
  | [] => []
  | statement :: rest =>
    statement.rename around position ::
      renameBody (statement.behind ρ position around) (position + statement.names.length) rest

end

end LoxLang
