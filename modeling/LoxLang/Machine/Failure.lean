import LoxLang.Machine.Frames
import LoxLang.Report
import LoxLang.Value.Index

/-!
# Failures

Why a running program stops before its end: a failure of its own on some line, or an output
that does not take what is written. Apart from both, evaluation stops when the budget it was
given is used up, which says nothing about the program, or when a text has no end.
-/

namespace LoxLang

/-- What a program did that has no meaning. -/
inductive FailureCause
  | undefinedVariable (name : String)
  | undefinedProperty (name : String)
  | noProperties
  | noFields
  | arrayFields
  | operandKind
  | operandKinds
  | additionKinds
  | divisionByZero
  | notCallable
  | wrongArity (expected given : Nat)
  | array (fault : ArrayFault)
  | superclassKind
  | notATrait (name : String)
  | traitsShare (method : String)
  | providedByTrait (method : String)
  | frame (fault : FrameFault)
  | superUnbound
  | superKind
  | superWithoutReceiver
  | initializerUnbound
deriving Repr, DecidableEq

/-- The wording of a cause. -/
def FailureCause.message : FailureCause → String
  | undefinedVariable name => "Undefined variable '" ++ name ++ "'."
  | undefinedProperty name => "Undefined property '" ++ name ++ "'."
  | noProperties => "Only instances have properties."
  | noFields => "Only instances have fields."
  | arrayFields => "Can't add properties to arrays."
  | operandKind => "Operand must be a number."
  | operandKinds => "Operands must be numbers."
  | additionKinds => "Operands must be two numbers or at least one string."
  | divisionByZero => "Division by zero."
  | notCallable => "Can only call functions and classes."
  | wrongArity expected given =>
    "Expected " ++ Nat.repr expected ++ " arguments but got " ++ Nat.repr given ++ "."
  | array fault => fault.message
  | superclassKind => "Superclass must be a class."
  | notATrait name => "'" ++ name ++ "' is not a trait."
  | traitsShare method => "A previous trait declares a method named '" ++ method ++ "'."
  | providedByTrait method => "Method '" ++ method ++ "' is already provided by a trait."
  | frame fault => fault.message
  | superUnbound => "Can't use 'super' outside of a subclass."
  | superKind => "Superclass must be a class."
  | superWithoutReceiver => "No 'this' frame below 'super'."
  | initializerUnbound => "Initializer called without a bound instance."

/-- Why evaluation stopped. -/
inductive Stop
  | failed (line : Nat) (cause : FailureCause)
  | closed (message : String)
  | exhausted
deriving Repr, DecidableEq

/-- What a user is told when evaluation stopped. -/
def Stop.report : Stop → Report
  | failed line cause => .failure line cause.message
  | closed message => .io message
  | exhausted => .io "evaluation budget exhausted"

end LoxLang
