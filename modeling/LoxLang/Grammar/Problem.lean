import LoxLang.Lexical.Token
import LoxLang.Report

/-!
# Problems of grammar

A problem is the token at which it shows and its cause.
-/

namespace LoxLang

/-- The two words by which callables are called in messages. -/
inductive Callable
  | function
  | method
deriving Repr, DecidableEq

def Callable.word : Callable → String
  | function => "function"
  | method => "method"

/-- The places at which one particular symbol has to stand. -/
inductive Landmark
  | classOpen
  | classClose
  | traitOpen
  | traitClose
  | parametersOpen (of : Callable)
  | parametersClose
  | bodyOpen (of : Callable)
  | blockClose
  | declarationEnd
  | breakEnd
  | forOpen
  | forMiddle
  | forClose
  | printEnd
  | expressionEnd
  | ifOpen
  | ifClose
  | whileOpen
  | whileClose
  | returnEnd
  | conditionalMiddle
  | argumentsClose
  | superDot
  | groupClose
deriving Repr, DecidableEq

namespace Landmark

/-- The symbol that has to stand there. -/
def symbol : Landmark → Symbol
  | classOpen => .leftBrace
  | classClose => .rightBrace
  | traitOpen => .leftBrace
  | traitClose => .rightBrace
  | parametersOpen _ => .leftParen
  | parametersClose => .rightParen
  | bodyOpen _ => .leftBrace
  | blockClose => .rightBrace
  | declarationEnd => .semicolon
  | breakEnd => .semicolon
  | forOpen => .leftParen
  | forMiddle => .semicolon
  | forClose => .rightParen
  | printEnd => .semicolon
  | expressionEnd => .semicolon
  | ifOpen => .leftParen
  | ifClose => .rightParen
  | whileOpen => .leftParen
  | whileClose => .rightParen
  | returnEnd => .semicolon
  | conditionalMiddle => .colon
  | argumentsClose => .rightParen
  | superDot => .dot
  | groupClose => .rightParen

/-- The words that say which place it is. -/
def position : Landmark → String
  | classOpen => "before class body"
  | classClose => "after class body"
  | traitOpen => "before trait body"
  | traitClose => "after trait body"
  | parametersOpen callable => "after " ++ callable.word ++ " name"
  | parametersClose => "after parameters"
  | bodyOpen callable => "before " ++ callable.word ++ " body"
  | blockClose => "after block"
  | declarationEnd => "after variable declaration"
  | breakEnd => "after 'break'"
  | forOpen => "after 'for'"
  | forMiddle => "after loop condition"
  | forClose => "after for clauses"
  | printEnd => "after value"
  | expressionEnd => "after expression"
  | ifOpen => "after 'if'"
  | ifClose => "after if condition"
  | whileOpen => "after 'while'"
  | whileClose => "after condition"
  | returnEnd => "after return value"
  | conditionalMiddle => "after then branch of conditional expression"
  | argumentsClose => "after arguments"
  | superDot => "after 'super'"
  | groupClose => "after expression"

end Landmark

/-- The places at which a name has to stand. -/
inductive NameRole
  | ofClass
  | ofSuperclass
  | ofTrait
  | ofCallable (callable : Callable)
  | ofParameter
  | ofVariable
  | ofProperty
  | ofSuperMethod
deriving Repr, DecidableEq

/-- The words that say what would be named. -/
def NameRole.words : NameRole → String
  | ofClass => "class name"
  | ofSuperclass => "superclass name"
  | ofTrait => "trait name"
  | ofCallable callable => callable.word ++ " name"
  | ofParameter => "parameter name"
  | ofVariable => "variable name"
  | ofProperty => "property name after '.'"
  | ofSuperMethod => "superclass method name"

namespace Grammar

/-- What is wrong with a text as a sentence of the grammar. -/
inductive Cause
  | missing (landmark : Landmark)
  | missingName (role : NameRole)
  | missingExpression
  | missingEnd
  | missingLeftOperand
  | invalidTarget
  | tooManyParameters
  | tooManyArguments
  | strayBreak
deriving Repr, DecidableEq

/-- The wording of a cause. -/
def Cause.message : Cause → String
  | missing landmark =>
    "Expect '" ++ landmark.symbol.spelling ++ "' " ++ landmark.position ++ "."
  | missingName role => "Expect " ++ role.words ++ "."
  | missingExpression => "Expect expression."
  | missingEnd => "Expect end of expression."
  | missingLeftOperand => "Missing left-hand operand."
  | invalidTarget => "Invalid assignment target."
  | tooManyParameters => "Can't have more than 255 parameters."
  | tooManyArguments => "Can't have more than 255 arguments."
  | strayBreak => "Must be inside a loop to use 'break'."

/-- A cause and the token at which it shows. -/
structure Problem where
  token : Token
  cause : Cause
deriving Repr

end Grammar

/-- The place that a token marks. -/
def Token.place (t : Token) : Place :=
  if t.isEof then .atEnd else .atLexeme t.lexeme

/-- What a user is told about a problem of grammar. -/
def Grammar.Problem.report (p : Grammar.Problem) : Report :=
  .static .grammar p.token.line p.token.place p.cause.message

end LoxLang
