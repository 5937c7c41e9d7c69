import LoxLang.Tree.Basic
import LoxLang.Number.Layout
import LoxLang.Text.Quoted

/-!
# Sketches of trees

The sketch of a tree shows its shape as nested parentheses: each node is its word and its
parts, separated by single spaces, and a name or operator is followed by `@` and its line.
-/

namespace LoxLang

namespace Sketch

/-- A node with its parts. -/
def node (parts : List String) : String :=
  "(" ++ " ".intercalate parts ++ ")"

/-- A word with its line. -/
def located (word : String) (line : Nat) : String :=
  word ++ "@" ++ Nat.repr line

end Sketch

open Sketch

/-- The sketch of a name. -/
def Name.sketch (n : Name) : String :=
  located n.text n.line

/-- The sketch of an occurrence of a variable. -/
def Reference.sketch (r : Reference) : String :=
  node ["var", r.name.sketch]

/-- The sketch of a literal. -/
def Literal.sketch : Literal → String
  | number value => Number.text value
  | text value => Quoted.encode value
  | bool true => "true"
  | bool false => "false"
  | nil => "nil"

mutual

/-- The sketch of an expression. -/
def Expr.sketch : Expr → String
  | .literal value => value.sketch
  | .unary op line operand => node ["unary", located op.symbol.spelling line, operand.sketch]
  | .binary left op line right =>
    node ["binary", located op.symbol.spelling line, left.sketch, right.sketch]
  | .logical left op line right =>
    node ["logical", located op.keyword.spelling line, left.sketch, right.sketch]
  | .conditional condition thenBranch elseBranch =>
    node ["cond", condition.sketch, thenBranch.sketch, elseBranch.sketch]
  | .grouping inner => node ["group", inner.sketch]
  | .variable ref => ref.sketch
  | .assign ref value => node ["assign", ref.name.sketch, value.sketch]
  | .call callee arguments line =>
    node (located "call" line :: callee.sketch :: sketchArguments arguments)
  | .get object name => node ["get", name.sketch, object.sketch]
  | .set object name value => node ["set", name.sketch, object.sketch, value.sketch]
  | .this _ line => node [located "this" line]
  | .super _ line method => node [located "super" line, method.sketch]
  | .lambda line function => node (located "lambda" line :: function.sketchParts)

/-- The sketches of the arguments of a call. -/
def sketchArguments : List Expr → List String
  | [] => []
  | argument :: rest => argument.sketch :: sketchArguments rest

/-- The parameters and the statements of a function. -/
def Function.sketchParts : Function → List String
  | .mk params body => node (params.map Name.sketch) :: sketchBody body

/-- A function with its name, as it stands in a class. -/
def NamedFunction.sketchParts : NamedFunction → List String
  | .mk name function => name.sketch :: function.sketchParts

/-- The sketches of the methods of a class or trait. -/
def sketchMethods : List NamedFunction → List String
  | [] => []
  | method :: rest => node method.sketchParts :: sketchMethods rest

/-- The sketch of a statement. -/
def Stmt.sketch : Stmt → String
  | .expression value => node ["expr", value.sketch]
  | .print value => node ["print", value.sketch]
  | .varDecl name none => node ["vardecl", name.sketch]
  | .varDecl name (some initial) => node ["vardecl", name.sketch, initial.sketch]
  | .block body => node ("block" :: sketchBody body)
  | .ifThen condition thenBranch none => node ["if", condition.sketch, thenBranch.sketch]
  | .ifThen condition thenBranch (some elseBranch) =>
    node ["if", condition.sketch, thenBranch.sketch, elseBranch.sketch]
  | .whileDo condition body => node ["while", condition.sketch, body.sketch]
  | .breakLoop line => node [located "break" line]
  | .returnWith line none => node [located "return" line]
  | .returnWith line (some value) => node [located "return" line, value.sketch]
  | .funDecl declared => node ("fun" :: declared.sketchParts)
  | .classDecl name superclass traits methods classMethods =>
    node ["class", name.sketch, node ("super" :: superclass.toList.map Reference.sketch),
      node ("with" :: traits.map Reference.sketch), node ("methods" :: sketchMethods methods),
      node ("class-methods" :: sketchMethods classMethods)]
  | .traitDecl name traits methods =>
    node ["trait", name.sketch, node ("with" :: traits.map Reference.sketch),
      node ("methods" :: sketchMethods methods)]

/-- The sketches of a list of statements. -/
def sketchBody : List Stmt → List String
  | [] => []
  | statement :: rest => statement.sketch :: sketchBody rest

end

end LoxLang
