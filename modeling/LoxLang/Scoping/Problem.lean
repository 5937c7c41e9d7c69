import LoxLang.Report
import LoxLang.Tree.Basic

/-!
# Problems of scoping

A problem is the word at which it shows, the line of that word, and its cause.
-/

namespace LoxLang

namespace Scoping

/-- What is wrong with the use of a name or of a word that needs a certain place. -/
inductive Cause
  | alreadyDeclared
  | neverRead
  | ownInitializer
  | returnOutsideFunction
  | valueFromInitializer
  | ownSuperclass
  | thisOutsideClass
  | superOutsideClass
  | superInTrait
  | superWithoutSuperclass
  | traitsShare (method : String)
  | providedByTrait (method : String)
deriving Repr, DecidableEq

/-- The wording of a cause. -/
def Cause.message : Cause → String
  | alreadyDeclared => "Already a variable with this name in this scope."
  | neverRead => "Local variable is not used."
  | ownInitializer => "Can't read local variable in its own initializer."
  | returnOutsideFunction => "Can't return from top-level code."
  | valueFromInitializer => "Can't return a value from an initializer."
  | ownSuperclass => "A class can't inherit from itself."
  | thisOutsideClass => "Can't use 'this' outside of a class."
  | superOutsideClass => "Can't use 'super' outside of a class."
  | superInTrait => "Can't use 'super' in a trait."
  | superWithoutSuperclass => "Can't use 'super' in a class with no superclass."
  | traitsShare method => "A previous trait declares a method named '" ++ method ++ "'."
  | providedByTrait method => "Method '" ++ method ++ "' is already provided by a trait."

/-- A cause and the word at which it shows. -/
structure Problem where
  word : Name
  cause : Cause
deriving Repr, DecidableEq

/-- What a user is told about a problem of scoping. -/
def Problem.report (p : Problem) : Report :=
  .static .scoping p.word.line (.atLexeme p.word.text) p.cause.message

end Scoping

end LoxLang
