import LoxLang.Tree.Basic

/-!
# Occurrences

The occurrences of variables, of `this` and of `super` in a tree, in the order of the source:
a node comes before its parts.
-/

namespace LoxLang

/-- The forms in which a name occurs. -/
inductive OccurrenceForm
  | read
  | assigned
  | receiver
  | superclass
deriving Repr, DecidableEq

/-- One occurrence: its form, its identity, and the word and line it stands with. -/
structure Occurrence where
  form : OccurrenceForm
  id : RefId
  word : String
  line : Nat
deriving Repr, DecidableEq

/-- A variable that is read. -/
def Reference.occurrence (r : Reference) : Occurrence :=
  ⟨.read, r.id, r.name.text, r.name.line⟩

mutual

/-- The occurrences in an expression. -/
def Expr.occurrences : Expr → List Occurrence
  | .literal _ => []
  | .unary _ _ operand => operand.occurrences
  | .binary left _ _ right => left.occurrences ++ right.occurrences
  | .logical left _ _ right => left.occurrences ++ right.occurrences
  | .conditional condition thenBranch elseBranch =>
    condition.occurrences ++ thenBranch.occurrences ++ elseBranch.occurrences
  | .grouping inner => inner.occurrences
  | .variable ref => [ref.occurrence]
  | .assign ref value => ⟨.assigned, ref.id, ref.name.text, ref.name.line⟩ :: value.occurrences
  | .call callee arguments _ => callee.occurrences ++ occurrencesInArguments arguments
  | .get object _ => object.occurrences
  | .set object _ value => object.occurrences ++ value.occurrences
  | .this id line => [⟨.receiver, id, thisName, line⟩]
  | .super id line _ => [⟨.superclass, id, superName, line⟩]
  | .lambda _ function => function.occurrences

/-- The occurrences in the arguments of a call. -/
def occurrencesInArguments : List Expr → List Occurrence
  | [] => []
  | argument :: rest => argument.occurrences ++ occurrencesInArguments rest

/-- The occurrences in a function. -/
def Function.occurrences : Function → List Occurrence
  | .mk _ body => occurrencesInBody body

/-- The occurrences in a function with a name. -/
def NamedFunction.occurrences : NamedFunction → List Occurrence
  | .mk _ function => function.occurrences

/-- The occurrences in the methods of a class or trait. -/
def occurrencesInMethods : List NamedFunction → List Occurrence
  | [] => []
  | method :: rest => method.occurrences ++ occurrencesInMethods rest

/-- The occurrences in a statement. -/
def Stmt.occurrences : Stmt → List Occurrence
  | .expression value => value.occurrences
  | .print value => value.occurrences
  | .varDecl _ none => []
  | .varDecl _ (some initial) => initial.occurrences
  | .block body => occurrencesInBody body
  | .ifThen condition thenBranch none => condition.occurrences ++ thenBranch.occurrences
  | .ifThen condition thenBranch (some elseBranch) =>
    condition.occurrences ++ thenBranch.occurrences ++ elseBranch.occurrences
  | .whileDo condition body => condition.occurrences ++ body.occurrences
  | .breakLoop _ => []
  | .returnWith _ none => []
  | .returnWith _ (some value) => value.occurrences
  | .funDecl declared => declared.occurrences
  | .classDecl _ superclass traits methods classMethods =>
    superclass.toList.map Reference.occurrence ++ traits.map Reference.occurrence ++
      occurrencesInMethods methods ++ occurrencesInMethods classMethods
  | .traitDecl _ traits methods =>
    traits.map Reference.occurrence ++ occurrencesInMethods methods

/-- The occurrences in a list of statements. -/
def occurrencesInBody : List Stmt → List Occurrence
  | [] => []
  | statement :: rest => statement.occurrences ++ occurrencesInBody rest

end

end LoxLang
