import YieldMachine.Instruction.Word

/-!
# Events

What a session records as it works: statements, context switches, and on request
jumps that were filled in and instructions before they are executed. A journal keeps
the events up to its level, in order.
-/

namespace YieldMachine

open Decimal

/-! ## Types -/

/-- What is recorded. Places are those of the instruction that is executed; a depth is
the number of consumers that wait after the switch. -/
inductive Event where
  | evaluating (entry size : Nat)
  | spawned (ip slot depth : Nat)
  | yielded (ip slot depth : Nat)
  | resumed (ip slot depth : Nat)
  | dropped (ip slot count : Nat)
  | discarded (ip count : Nat)
  | unwound (ip count : Nat)
  | patched (offset target : Nat) (distance : Int)
  | executing (ip : Nat) (instruction : Instruction) (depth : Nat)
  deriving Repr

/-- How much is recorded. -/
inductive Level where
  | off | debug | trace
  deriving DecidableEq, Repr, Inhabited

/-- The events recorded so far. -/
structure Journal where
  level : Level := .off
  events : Array Event := #[]
  deriving Inhabited

/-! ## Recording -/

/-- Is it an event of the finest level? -/
def Event.isFine : Event → Bool
  | .patched .. | .executing .. => true
  | _ => false

/-- Does a level record an event? -/
def Level.records (level : Level) (e : Event) : Bool :=
  match level with
  | .off => false
  | .debug => !e.isFine
  | .trace => true

/-- Record an event if the level asks for it. -/
def Journal.record (journal : Journal) (e : Event) : Journal :=
  match journal with
  | ⟨level, events⟩ => if level.records e then ⟨level, events.push e⟩ else ⟨level, events⟩

/-- Take the events recorded so far. -/
def Journal.take (journal : Journal) : Array Event × Journal :=
  (journal.events, { journal with events := #[] })

/-! ## Text -/

/-- A name with a number. -/
def Event.field (name : String) (n : Int) : String :=
  " " ++ name ++ "=" ++ intText n

/-- The text of an event. -/
def Event.text : Event → String
  | .evaluating entry size => "evaluating statement" ++ field "entry" entry ++ field "size" size
  | .spawned ip slot depth =>
    "spawned producer" ++ field "ip" ip ++ field "slot" slot ++ field "depth" depth
  | .yielded ip slot depth => "yielded" ++ field "ip" ip ++ field "slot" slot ++ field "depth" depth
  | .resumed ip slot depth =>
    "resumed producer" ++ field "ip" ip ++ field "slot" slot ++ field "depth" depth
  | .dropped ip slot count =>
    "producer dropped" ++ field "ip" ip ++ field "slot" slot ++ field "discarded" count
  | .discarded ip count =>
    "discarded parked producers" ++ field "ip" ip ++ field "discarded" count
  | .unwound ip count => "unwound producers on return" ++ field "ip" ip ++ field "discarded" count
  | .patched offset target distance =>
    "patched jump" ++ field "offset" offset ++ field "target" target ++ field "distance" distance
  | .executing ip instruction depth =>
    "exec" ++ field "ip" ip ++ " instruction=" ++ instruction.text ++ field "depth" depth

end YieldMachine
