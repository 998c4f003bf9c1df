import YieldMachine.Decimal.Numeral
import YieldMachine.Text.Blank
import YieldMachine.Value.Error

/-!
# Conversions

Values become integers, doubles and texts. A text is trimmed of blanks and read as a
numeral; one that is no integer but a finite decimal gives its whole part. A double
beyond the integers becomes the nearest one, and what is not a number becomes 0.
-/

namespace YieldMachine

open Decimal

/-! ## Algorithm -/

/-- Convert to an integer. -/
def Value.toInt (v : Value) : Value :=
  match v with
  | .int n => .int n
  | .error message => .error message
  | .float x => .int x.toFloat.toInt64
  | .string s =>
    let text := Text.trim s
    match readInt64? text with
    | some n => .int n
    | none =>
      match readFloat? text with
      | some x => if x.isFinite then .int x.toInt64 else (ValueError.conversion s).value
      | none => (ValueError.conversion s).value
  | _ => (ValueError.operand "int" v.kind).value

/-- Convert to a double. -/
def Value.toFloat (v : Value) : Value :=
  match v with
  | .float x => .float x
  | .error message => .error message
  | .int n => .float (promote n)
  | .string s =>
    match readFloat? (Text.trim s) with
    | some x => .float x
    | none => (ValueError.conversion s).value
  | _ => (ValueError.operand "float" v.kind).value

/-- Convert to a text. -/
def Value.toStr (v : Value) : Value :=
  .string v.text

/-- The status that `exit` leaves with: an integer as given, nil as success, anything
else as failure. -/
def Value.exitStatus : Value → Int64
  | .int n => n
  | .nil => 0
  | _ => 1

end YieldMachine
