import LoxLang.Machine.State

/-!
# Operators

What operators do to the values of their operands.
-/

namespace LoxLang

/-- Apply an operator to its operand. -/
def UnaryOp.apply (op : UnaryOp) (line : Nat) (operand : Value) : Run Value :=
  match op, operand with
  | .not, value => pure (.bool !value.isTruthy)
  | .negate, .number n => pure (.number (-n))
  | .negate, _ => Run.fail line .operandKind

/-- Whether a logical operator leaves its right operand unevaluated after this left one. -/
def LogicalOp.stopsAt (op : LogicalOp) (left : Value) : Bool :=
  match op with
  | .either => left.isTruthy
  | .both => !left.isTruthy

/-- Apply an operation to two numbers. -/
def onNumbers (line : Nat) (operation : Float → Float → Value) (left right : Value) :
    Run Value :=
  match left, right with
  | .number a, .number b => pure (operation a b)
  | _, _ => Run.fail line .operandKinds

/-- The sum of two numbers; a text and any value are joined as texts. -/
def sum (line : Nat) (left right : Value) : Run Value :=
  match left, right with
  | .number a, .number b => pure (.number (a + b))
  | .text a, other => do return .text (a ++ (← Run.textOf other))
  | other, .text b => do return .text ((← Run.textOf other) ++ b)
  | _, _ => Run.fail line .additionKinds

/-- The quotient of two numbers. -/
def quotient (line : Nat) (left right : Value) : Run Value :=
  match left, right with
  | .number a, .number b =>
    if b == 0.0 then Run.fail line .divisionByZero else pure (.number (a / b))
  | _, _ => Run.fail line .operandKinds

/-- Apply an operator to its operands. -/
def BinaryOp.apply (op : BinaryOp) (line : Nat) (left right : Value) : Run Value :=
  match op with
  | .comma => pure right
  | .equal => pure (.bool (left.equals right))
  | .notEqual => pure (.bool !left.equals right)
  | .greater => onNumbers line (fun a b => .bool (a > b)) left right
  | .greaterEqual => onNumbers line (fun a b => .bool (a ≥ b)) left right
  | .less => onNumbers line (fun a b => .bool (a < b)) left right
  | .lessEqual => onNumbers line (fun a b => .bool (a ≤ b)) left right
  | .subtract => onNumbers line (fun a b => .number (a - b)) left right
  | .add => sum line left right
  | .divide => quotient line left right
  | .multiply => onNumbers line (fun a b => .number (a * b)) left right

end LoxLang
