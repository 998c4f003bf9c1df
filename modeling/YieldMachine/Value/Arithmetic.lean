import YieldMachine.Decimal.Remainder
import YieldMachine.Operator
import YieldMachine.Value.Error

/-!
# Operators on values

Every operation is total. An operand that is an error is the result, the left one
first; operands that an operator does not take give an error value. Integers wrap,
doubles follow IEEE 754, and an integer meets a double as a double.
-/

namespace YieldMachine

open Decimal

/-! ## Errors -/

/-- The first error among the operands. -/
def Value.firstError : List Value → Option Value
  | [] => none
  | v :: rest => if v.isError then some v else Value.firstError rest

/-- Operands of different kinds do not go together; of one kind, the operator is at fault. -/
def BinaryOp.mismatch (op : BinaryOp) (left right : Value) : Value :=
  if left.kind = right.kind then (ValueError.operator op.symbol left.kind).value
  else (ValueError.operands op.symbol left.kind right.kind).value

/-! ## Arithmetic -/

/-- Wrapping integer arithmetic; only a zero divisor is refused. -/
def BinaryOp.intArith (op : BinaryOp) (a b : Int64) : Value :=
  match op with
  | .add => .int (a + b)
  | .subtract => .int (a - b)
  | .multiply => .int (a * b)
  | .divide => if b = 0 then ValueError.zeroDivision.value else .int (a / b)
  | .modulo => if b = 0 then ValueError.zeroDivision.value else .int (a % b)
  | _ => op.mismatch (.int a) (.int b)

/-- Arithmetic on doubles. -/
def BinaryOp.floatArith (op : BinaryOp) (a b : Float) : Value :=
  match op with
  | .add => .float (.ofFloat (a + b))
  | .subtract => .float (.ofFloat (a - b))
  | .multiply => .float (.ofFloat (a * b))
  | .divide => .float (.ofFloat (a / b))
  | .modulo => .float (.ofFloat (remainder a b))
  | _ => op.mismatch (.float a) (.float b)

/-- Arithmetic, and the joining of two texts or two arrays. -/
def BinaryOp.arith (op : BinaryOp) (left right : Value) : Value :=
  match left, right with
  | .int a, .int b => op.intArith a b
  | .int a, .float b => op.floatArith (promote a) b.toFloat
  | .float a, .int b => op.floatArith a.toFloat (promote b)
  | .float a, .float b => op.floatArith a.toFloat b.toFloat
  | .string a, .string b => if op = .add then .string (a ++ b) else op.mismatch left right
  | .array a, .array b => if op = .add then .array (a ++ b) else op.mismatch left right
  | _, _ => op.mismatch left right

/-! ## Comparison -/

/-- The order of two integers. -/
def orderInts (a b : Int64) : Ordering :=
  if a < b then .lt else if a = b then .eq else .gt

/-- The order of two doubles; none when one is not a number. -/
def orderFloats (a b : Float) : Option Ordering :=
  if a < b then some .lt else if a == b then some .eq else if b < a then some .gt else none

/-- The order of two texts, character by character. -/
def orderStrings (a b : String) : Ordering :=
  if a < b then .lt else if a = b then .eq else .gt

/-- Does an order make the comparison true? -/
def BinaryOp.holds (op : BinaryOp) (order : Ordering) : Bool :=
  match op with
  | .less => order == .lt
  | .lessEqual => order != .gt
  | .greater => order == .gt
  | .greaterEqual => order != .lt
  | _ => false

/-- The value of a comparison; what has no order is not less, equal or greater. -/
def BinaryOp.ordered (op : BinaryOp) (order : Option Ordering) : Value :=
  .bool (order.any op.holds)

/-- Order of numbers and of texts. -/
def BinaryOp.relational (op : BinaryOp) (left right : Value) : Value :=
  match left, right with
  | .int a, .int b => op.ordered (some (orderInts a b))
  | .int a, .float b => op.ordered (orderFloats (promote a) b.toFloat)
  | .float a, .int b => op.ordered (orderFloats a.toFloat (promote b))
  | .float a, .float b => op.ordered (orderFloats a.toFloat b.toFloat)
  | .string a, .string b => op.ordered (some (orderStrings a b))
  | _, _ => op.mismatch left right

/-- Conjunction and disjunction of booleans. -/
def BinaryOp.logic (op : BinaryOp) (left right : Value) : Value :=
  match left, right with
  | .bool a, .bool b => .bool (if op = .and then a && b else a || b)
  | _, _ => (ValueError.operands op.symbol left.kind right.kind).value

/-! ## Operators -/

/-- Apply a binary operator. -/
def BinaryOp.apply (op : BinaryOp) (left right : Value) : Value :=
  match Value.firstError [left, right] with
  | some e => e
  | none =>
    match op with
    | .add | .subtract | .multiply | .divide | .modulo => op.arith left right
    | .equal => .bool (left.weakEq right)
    | .notEqual => .bool (!left.weakEq right)
    | .less | .lessEqual | .greater | .greaterEqual => op.relational left right
    | .and | .or => op.logic left right

/-- Apply a unary operator. -/
def UnaryOp.apply (op : UnaryOp) (operand : Value) : Value :=
  match op, operand with
  | _, .error message => .error message
  | .negate, .int n => .int (-n)
  | .negate, .float x => .float x.neg
  | .not, .bool b => .bool (!b)
  | _, _ => (ValueError.operand op.symbol operand.kind).value

end YieldMachine
