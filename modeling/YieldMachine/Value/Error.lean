import YieldMachine.Value.Basic

/-!
# Errors as values

What goes wrong inside the language does not stop a program: it becomes a value
that carries a message. `ValueError` lists the causes, `ValueError.message` the
wording, and `ValueError.value` the resulting value.
-/

namespace YieldMachine

open Decimal

/-! ## Types -/

/-- Why an operation gives an error value. -/
inductive ValueError where
  /-- Two operands of kinds that the operation does not take together. -/
  | operands (op : String) (left right : Kind)
  /-- One operand of a kind that the operation does not take. -/
  | operand (op : String) (kind : Kind)
  /-- Two operands of one kind, on which the operator means nothing. -/
  | operator (op : String) (kind : Kind)
  | zeroDivision
  | index (index : Int) (length : Nat)
  | slice (start stop : Int) (length : Nat)
  | undefinedGlobal (name : String)
  | arity (expected got : Nat)
  | notCallable (kind : Kind)
  | conversion (text : String)
  deriving DecidableEq, Repr

/-! ## Wording -/

/-- The message that the error value carries. -/
def ValueError.message : ValueError → String
  | .operands op left right =>
    "type error: cannot apply '" ++ op ++ "' to " ++ left.name ++ " and " ++ right.name
  | .operand op kind => "type error: cannot apply '" ++ op ++ "' to " ++ kind.name
  | .operator op kind => "invalid operator '" ++ op ++ "' for " ++ kind.name
  | .zeroDivision => "zero division"
  | .index i length =>
    "index error: " ++ intText i ++ " out of range for length " ++ intText length
  | .slice start stop length =>
    "index error: slice " ++ intText start ++ ":" ++ intText stop ++
      " out of range for length " ++ intText length
  | .undefinedGlobal name => "undefined variable '" ++ name ++ "'"
  | .arity expected got =>
    "wrong argument count: expected " ++ intText expected ++ ", got " ++ intText got
  | .notCallable kind => "type error: " ++ kind.name ++ " is not callable"
  | .conversion text => "conversion error: cannot convert '" ++ text ++ "' to a number"

/-- The error value of a cause. -/
def ValueError.value (e : ValueError) : Value :=
  .error e.message

end YieldMachine
