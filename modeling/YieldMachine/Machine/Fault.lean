import YieldMachine.Value.Basic
import YieldMachine.Instruction.Word

/-!
# Fatal faults

A fault stops a run: the code is broken, a limit is reached, or a program does what
the machine cannot go on from. It is never visible as a value. Each fault has a
cause and the place of the instruction that raised it.
-/

namespace YieldMachine

open Decimal

/-! ## Types -/

/-- Ways to break the protocol of producers and consumers. -/
inductive Misuse where
  | spawnOutsideLoop
  | yieldOutsideProducer
  | consumerNotWaiting
  | consumerWithoutSlot
  | nothingToResume
  | finishWithoutConsumer
  | noLoopToClose
  | endInsideProducer
  deriving DecidableEq, Repr

/-- Why a run stops. -/
inductive Cause where
  | unknownOpcode (code : Nat)
  | unknownMode (code : Nat)
  | stackUnderflow
  | stackOverflow (limit : Nat)
  | frameUnderflow
  | frameOverflow (limit : Nat)
  | slotOutOfRange (slot : Int) (size : Nat)
  | dataOutOfRange (index : Int)
  | invalidGlobalName (index : Int)
  | invalidStoreTarget
  | jumpOutOfRange (target : Int)
  | nonBoolCondition (found : Kind)
  | returnOutsideCall
  | contextMisuse (misuse : Misuse)
  | contextOverflow (limit : Nat)
  deriving DecidableEq, Repr

/-- A cause, and the place of the instruction that raised it. -/
structure Fault where
  cause : Cause
  ip : Nat
  deriving DecidableEq, Repr

/-! ## Wording -/

/-- What is said about a misuse. -/
def Misuse.message : Misuse → String
  | .spawnOutsideLoop => "spawn outside of a for loop"
  | .yieldOutsideProducer => "yield outside of a producer"
  | .consumerNotWaiting => "consumer is not waiting for a value"
  | .consumerWithoutSlot => "consumer has no slot for its producer"
  | .nothingToResume => "no parked producer to resume"
  | .finishWithoutConsumer => "producer finished without a consumer"
  | .noLoopToClose => "no for loop to close"
  | .endInsideProducer => "program ended inside a producer"

/-- The cause that a decode error becomes. -/
def DecodeError.cause : DecodeError → Cause
  | .unknownOpcode code => .unknownOpcode code
  | .unknownMode code => .unknownMode code

/-- The message of a fault. -/
def Fault.message (fault : Fault) : String :=
  let place := " at " ++ intText fault.ip
  match fault.cause with
  | .unknownOpcode code => "unknown opcode " ++ intText code ++ place
  | .unknownMode code => "unknown addressing mode " ++ intText code ++ place
  | .stackUnderflow => "operand stack underflow" ++ place
  | .stackOverflow limit => "operand stack overflow" ++ place ++ " (limit " ++ intText limit ++ ")"
  | .frameUnderflow => "frame stack underflow" ++ place
  | .frameOverflow limit => "frame stack overflow" ++ place ++ " (limit " ++ intText limit ++ ")"
  | .slotOutOfRange slot size =>
    "slot " ++ intText slot ++ " out of range for a frame of " ++ intText size ++ " slots" ++ place
  | .dataOutOfRange index => "data segment index " ++ intText index ++ " out of range" ++ place
  | .invalidGlobalName index =>
    "global name at data index " ++ intText index ++ " is not a string" ++ place
  | .invalidStoreTarget => "operand is not writable" ++ place
  | .jumpOutOfRange target => "jump target " ++ intText target ++ " out of range" ++ place
  | .nonBoolCondition found => "condition must be a bool, found " ++ found.name ++ place
  | .returnOutsideCall => "return outside of a function call" ++ place
  | .contextMisuse misuse => "context stack misuse" ++ place ++ ": " ++ misuse.message
  | .contextOverflow limit =>
    "context stack overflow" ++ place ++ " (limit " ++ intText limit ++ ")"

end YieldMachine
