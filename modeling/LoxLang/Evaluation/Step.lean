import LoxLang.Evaluation.Classes
import LoxLang.Evaluation.Objects
import LoxLang.Evaluation.Operators

/-!
# Evaluation

Expressions are evaluated to values, and statements are executed to a `Completion`, which says
how control leaves them. Both spend one unit of a budget for each level of nesting and for
each round of a loop; with the budget used up they stop as `exhausted`, and any greater budget
leaves every other answer as it is.
-/

namespace LoxLang

/-- How control leaves a statement. -/
inductive Completion
  | normal
  | broke
  | returned (value : Value)

namespace Evaluation

/-- Execute statements in order, up to the first that does not complete normally. -/
def inOrder (execute : Stmt → Run Completion) : List Stmt → Run Completion
  | [] => pure .normal
  | statement :: rest => do
    match ← execute statement with
    | .normal => inOrder execute rest
    | other => return other

/-- The values of expressions, evaluated in order. -/
def values (evaluate : Expr → Run Value) : List Expr → Run (List Value)
  | [] => pure []
  | e :: rest => do
    let value ← evaluate e
    return value :: (← values evaluate rest)

/-- Check the number of arguments of a call. -/
def checkArity (expected : Nat) (arguments : List Value) (line : Nat) : Run Unit :=
  if expected = arguments.length then pure ()
  else Run.fail line (.wrongArity expected arguments.length)

/-- Call a native function. -/
def callNative (native : Native) (arguments : List Value) (line : Nat) : Run Value := do
  match native with
  | .clock => return .number (← Run.readClock)
  | .array =>
    let room ← Run.room
    let size ← Run.ofExcept line .array (arraySize (arguments.headD .nil) room)
    return .array (← Run.newArray size)

/-- Call a function of an array. -/
def callArrayMethod (array : ArrayId) (method : ArrayMethod) (arguments : List Value)
    (line : Nat) : Run Value := do
  let length ← Run.arrayLength array
  let index ← Run.ofExcept line .array (arrayIndex (arguments.headD .nil) length)
  match method with
  | .get => Run.element array index
  | .set =>
    let value := arguments.getD 1 .nil
    Run.setElement array index value
    return value

/-- A new frame for a call, with the arguments in its first slots. -/
def callFrame (closure : Closure) (arguments : List Value) : Run FrameId := do
  let frame ← Run.newFrame closure.frame
  Run.defineAll frame arguments
  return frame

/-- What a call yields after the body of its function: an initializer yields the object it
is bound to. -/
def callResult (closure : Closure) (line : Nat) (completion : Completion) : Run Value := do
  if closure.isInitializer then
    match closure.frame with
    | some frame => slotValue frame 0 0 line
    | none => Run.fail line .initializerUnbound
  else
    match completion with
    | .returned value => return value
    | _ => return .nil

/-- A new instance of a class, set up by its initializer if it has one. -/
def instantiate (call : Closure → List Value → Nat → Run Value) (type : Class)
    (arguments : List Value) (line : Nat) : Run Value := do
  let created := Value.instanceOf (← Run.newObject) type
  match type.findMethod? initializerName with
  | some initializer =>
    let _ ← call (← initializer.bind created) arguments line
    return created
  | none => return created

/-- Call a value. -/
def callValue (call : Closure → List Value → Nat → Run Value) (callee : Value)
    (arguments : List Value) (line : Nat) : Run Value := do
  match callee with
  | .native native =>
    checkArity native.arity arguments line
    callNative native arguments line
  | .function _ closure =>
    checkArity closure.function.arity arguments line
    call closure arguments line
  | .classValue type =>
    checkArity type.arity arguments line
    instantiate call type arguments line
  | .arrayMethod array method =>
    checkArity method.arity arguments line
    callArrayMethod array method arguments line
  | _ => Run.fail line .notCallable

end Evaluation

open Evaluation

mutual

/-- The value of an expression. -/
def evaluate : Nat → Expr → Run Value
  | 0, _ => throw .exhausted
  | budget + 1, e => do
    match e with
    | .literal value => return value.value
    | .grouping inner => evaluate budget inner
    | .unary op line operand => op.apply line (← evaluate budget operand)
    | .binary left op line right =>
      let left ← evaluate budget left
      let right ← evaluate budget right
      op.apply line left right
    | .logical left op _ right =>
      let left ← evaluate budget left
      if op.stopsAt left then return left else evaluate budget right
    | .conditional condition thenBranch elseBranch =>
      if (← evaluate budget condition).isTruthy then evaluate budget thenBranch
      else evaluate budget elseBranch
    | .variable ref => Run.lookUp ref.id ref.name.text ref.name.line
    | .assign ref value =>
      let value ← evaluate budget value
      Run.assign ref.id ref.name.text ref.name.line value
      return value
    | .call callee arguments line =>
      let callee ← evaluate budget callee
      let arguments ← values (evaluate budget) arguments
      callValue (callClosure budget) callee arguments line
    | .get object name => property (← evaluate budget object) name
    | .set object name value =>
      let owner ← fieldOwner (← evaluate budget object) name
      let value ← evaluate budget value
      Run.setField owner name.text value
      return value
    | .this id line => Run.lookUp id thisName line
    | .super id line method => superMethod id line method
    | .lambda _ function => Closure.toValue ⟨none, function, ← Run.current, false⟩

/-- Execute a statement. -/
def execute : Nat → Stmt → Run Completion
  | 0, _ => throw .exhausted
  | budget + 1, s => do
    match s with
    | .expression value =>
      let _ ← evaluate budget value
      return .normal
    | .print value =>
      Run.print (← evaluate budget value)
      return .normal
    | .varDecl name initial =>
      let value ← match initial with
        | some e => evaluate budget e
        | none => pure .nil
      Run.declare name.text value
      return .normal
    | .block body =>
      let frame ← Run.newFrame (← Run.current)
      Run.within frame (inOrder (execute budget) body)
    | .ifThen condition thenBranch elseBranch =>
      if (← evaluate budget condition).isTruthy then execute budget thenBranch
      else
        match elseBranch with
        | some statement => execute budget statement
        | none => return .normal
    | .whileDo condition body => repeatWhile budget condition body
    | .breakLoop _ => return .broke
    | .returnWith _ value =>
      match value with
      | some e => return .returned (← evaluate budget e)
      | none => return .returned .nil
    | .funDecl declared =>
      let closure := declared.closure (← Run.current) false
      Run.declare declared.name.text (← closure.toValue)
      return .normal
    | .classDecl name superclass traits methods classMethods =>
      declareClass name superclass traits methods classMethods
      return .normal
    | .traitDecl name traits methods =>
      declareTrait name traits methods
      return .normal

/-- Execute a statement as long as a condition holds. -/
def repeatWhile : Nat → Expr → Stmt → Run Completion
  | 0, _, _ => throw .exhausted
  | budget + 1, condition, body => do
    if (← evaluate budget condition).isTruthy then
      match ← execute budget body with
      | .normal => repeatWhile budget condition body
      | .broke => return .normal
      | .returned value => return .returned value
    else return .normal

/-- Call a function. -/
def callClosure : Nat → Closure → List Value → Nat → Run Value
  | 0, _, _, _ => throw .exhausted
  | budget + 1, closure, arguments, line => do
    let frame ← callFrame closure arguments
    let completion ← Run.within frame (inOrder (execute budget) closure.function.body)
    callResult closure line completion

end

/-- Execute the statements of a program in order. How control leaves one of them does not
matter to the next. -/
def interpret (budget : Nat) : List Stmt → Run Unit
  | [] => pure ()
  | statement :: rest => do
    let _ ← execute budget statement
    interpret budget rest

end LoxLang
