import YieldMachine.Decimal.Style
import YieldMachine.Operator

/-!
# Why a tree does not compile

A number that an instruction has to hold may not fit its 16-bit field, a for loop
may bind another number of variables than it has iterators, and a primitive may be
given another number of arguments than it takes. Nothing else is refused.
-/

namespace YieldMachine

open Decimal

/-! ## Types -/

/-- What the address field of an operand stands for. -/
inductive AddressField where
  | immediate | stackAddress
  | dataIndex | globalName | localSlot | closureSlot
  | jumpOffset | producerSlot
  | functionEntry | parameterCount | frameSize
  | argumentCount | arrayLength
  deriving DecidableEq, Repr

/-- Why a tree does not compile. -/
inductive CompileError where
  | addressOverflow (field : AddressField) (value : Int)
  | forArity (refs iterators : Nat)
  | primitiveArity (primitive : Primitive) (got : Nat)
  deriving DecidableEq, Repr

/-! ## Wording -/

/-- The words for an address field. -/
def AddressField.name : AddressField → String
  | .immediate => "immediate"
  | .stackAddress => "stack address"
  | .dataIndex => "data index"
  | .globalName => "global name index"
  | .localSlot => "local slot"
  | .closureSlot => "closure slot"
  | .jumpOffset => "jump offset"
  | .producerSlot => "producer slot"
  | .functionEntry => "function entry offset"
  | .parameterCount => "parameter count"
  | .frameSize => "frame size"
  | .argumentCount => "argument count"
  | .arrayLength => "array length"

/-- The message of a compile error. -/
def CompileError.message : CompileError → String
  | .addressOverflow field value =>
    field.name ++ " " ++ intText value ++ " does not fit in a 16-bit address field"
  | .forArity refs iterators =>
    "for loop binds " ++ intText refs ++ " variables but has " ++ intText iterators ++ " iterators"
  | .primitiveArity primitive got =>
    "builtin '" ++ primitive.name ++ "' takes " ++ intText primitive.arity ++
      " arguments, got " ++ intText got

end YieldMachine
