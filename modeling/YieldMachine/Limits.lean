import YieldMachine.Decimal.Numeral
import YieldMachine.Text.Blank

/-!
# Limits

How many values, calls and suspended consumers a machine holds at most, and whether
it records every instruction. Settings may come as texts from outside, such as the
variables of an environment; a text that is no number is passed over.
-/

namespace YieldMachine

open Decimal

/-! ## Types -/

/-- Limits and switches of a machine. Going past a limit is fatal. -/
structure Limits where
  /-- Values on the operand stack of one context. -/
  maxStack : Nat := 65536
  /-- Nested calls of one context. -/
  maxCalls : Nat := 65536
  /-- Consumers that wait behind the active context. -/
  maxContexts : Nat := 65536
  /-- Record every instruction before it is executed. -/
  trace : Bool := false
  deriving DecidableEq, Repr, Inhabited

/-- What can be set from outside. -/
inductive Setting where
  | maxStack | maxCalls | maxContexts | trace
  deriving DecidableEq, Repr

/-! ## Reading -/

/-- The number that a text holds, blanks around it aside. -/
def Limits.number? (text : String) : Option Nat :=
  readWord? (Text.trim text)

/-- Does a text switch something on? -/
def Limits.isOn (text : String) : Bool :=
  ["1", "true", "yes", "on"].contains (Text.trim text)

/-- The limits that texts ask for, and the usual ones where there is no number. -/
def Limits.ofTexts (lookup : Setting → Option String) : Limits :=
  let usual : Limits := {}
  let number (setting : Setting) := (lookup setting).bind Limits.number?
  ⟨(number .maxStack).getD usual.maxStack, (number .maxCalls).getD usual.maxCalls,
    (number .maxContexts).getD usual.maxContexts,
    (lookup .trace).elim usual.trace Limits.isOn⟩

end YieldMachine
