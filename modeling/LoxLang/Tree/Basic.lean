import LoxLang.Lexical.Token

/-!
# Trees

The tree of a program. Every occurrence of a name that may denote a local variable carries a
`RefId`, by which its binding is looked up later; no two occurrences share one.
-/

namespace LoxLang

/-- Identifies one occurrence of a name, of `this` or of `super`. -/
abbrev RefId := Nat

/-- A name and the line it stands on. -/
structure Name where
  text : String
  line : Nat
deriving Repr, DecidableEq

/-- An occurrence of a variable. -/
structure Reference where
  id : RefId
  name : Name
deriving Repr, DecidableEq

/-- A value written out in a program. -/
inductive Literal
  | number (value : Float)
  | text (value : String)
  | bool (value : Bool)
  | nil
deriving Repr

/-- Operators before their operand. -/
inductive UnaryOp
  | negate
  | not
deriving Repr, DecidableEq

/-- The symbol an operator is written with. -/
def UnaryOp.symbol : UnaryOp → Symbol
  | negate => .minus
  | not => .bang

/-- Operators that evaluate both operands. -/
inductive BinaryOp
  | comma
  | equal
  | notEqual
  | greater
  | greaterEqual
  | less
  | lessEqual
  | subtract
  | add
  | divide
  | multiply
deriving Repr, DecidableEq

/-- The symbol an operator is written with. -/
def BinaryOp.symbol : BinaryOp → Symbol
  | comma => .comma
  | equal => .equalEqual
  | notEqual => .bangEqual
  | greater => .greater
  | greaterEqual => .greaterEqual
  | less => .less
  | lessEqual => .lessEqual
  | subtract => .minus
  | add => .plus
  | divide => .slash
  | multiply => .star

/-- Operators that may leave their right operand unevaluated. -/
inductive LogicalOp
  | both
  | either
deriving Repr, DecidableEq

/-- The word an operator is written with. -/
def LogicalOp.keyword : LogicalOp → Keyword
  | both => .andWord
  | either => .orWord

mutual

/-- Expressions. The line of an operator is that of its symbol, the line of a call that of
its closing parenthesis, and the line of a nameless function that of the word `fun`. -/
inductive Expr
  | literal (value : Literal)
  | unary (op : UnaryOp) (line : Nat) (operand : Expr)
  | binary (left : Expr) (op : BinaryOp) (line : Nat) (right : Expr)
  | logical (left : Expr) (op : LogicalOp) (line : Nat) (right : Expr)
  | conditional (condition thenBranch elseBranch : Expr)
  | grouping (inner : Expr)
  | variable (ref : Reference)
  | assign (ref : Reference) (value : Expr)
  | call (callee : Expr) (arguments : List Expr) (line : Nat)
  | get (object : Expr) (name : Name)
  | set (object : Expr) (name : Name) (value : Expr)
  | this (id : RefId) (line : Nat)
  | super (id : RefId) (line : Nat) (method : Name)
  | lambda (line : Nat) (function : Function)

/-- Parameters and body. -/
inductive Function
  | mk (params : List Name) (body : List Stmt)

/-- A function or method with its name. -/
inductive NamedFunction
  | mk (name : Name) (function : Function)

/-- Statements and declarations. A `for` loop is a `while` loop in blocks. -/
inductive Stmt
  | expression (value : Expr)
  | print (value : Expr)
  | varDecl (name : Name) (initial : Option Expr)
  | block (body : List Stmt)
  | ifThen (condition : Expr) (thenBranch : Stmt) (elseBranch : Option Stmt)
  | whileDo (condition : Expr) (body : Stmt)
  | breakLoop (line : Nat)
  | returnWith (line : Nat) (value : Option Expr)
  | funDecl (declared : NamedFunction)
  | classDecl (name : Name) (superclass : Option Reference) (traits : List Reference)
      (methods classMethods : List NamedFunction)
  | traitDecl (name : Name) (traits : List Reference) (methods : List NamedFunction)

end

instance : Inhabited Expr := ⟨.literal .nil⟩

instance : Inhabited Stmt := ⟨.block []⟩

/-- The word for the receiver of a method. -/
def thisName : String := "this"

/-- The word for the class that a method's class extends. -/
def superName : String := "super"

/-- The name of the method that sets up an instance. -/
def initializerName : String := "init"

namespace Function

/-- The parameters of a function. -/
def params : Function → List Name
  | mk params _ => params

/-- The statements of a function. -/
def body : Function → List Stmt
  | mk _ body => body

/-- The number of arguments a function takes. -/
def arity (f : Function) : Nat :=
  f.params.length

end Function

namespace NamedFunction

/-- The name of a function. -/
def name : NamedFunction → Name
  | mk name _ => name

/-- The function without its name. -/
def function : NamedFunction → Function
  | mk _ function => function

end NamedFunction

end LoxLang
