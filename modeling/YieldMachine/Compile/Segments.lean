import YieldMachine.Compile.Workbench

/-!
# Segments

Compiling acts on the words of the whole program, on its constants and on the journal. It
emits instructions at the end of the words. A jump forward is emitted before its distance is
known; when the code it skips is there, its address is patched in place. What an action has
done when it fails stays done, so whoever calls it has to take the words back.
-/

namespace YieldMachine

/-! ## Types -/

/-- The words of a program, its constants, and the events recorded. -/
structure Segments where
  code : Array Word
  pool : Pool
  journal : Journal
  deriving Inhabited

/-- Emitting may fail, and leaves what it has done until then. -/
abbrev Emitting := EStateM CompileError Segments

/-- The distance from behind the instruction at `source` to `target`. -/
def distance (source target : Nat) : Int :=
  (target : Int) - ((source : Int) + 1)

namespace Emitting

/-! ## Parts of the segments -/

/-- Act on the constants and the journal. -/
def onBench {α : Type} (x : Lowering α) : Emitting α := fun s =>
  match s with
  | ⟨code, pool, journal⟩ =>
    match x ⟨pool, journal⟩ with
    | .ok a ⟨pool, journal⟩ => .ok a ⟨code, pool, journal⟩
    | .error e ⟨pool, journal⟩ => .error e ⟨code, pool, journal⟩

/-- Act on the words. -/
def onCode {α : Type} (x : Patching α) : Emitting α := fun s =>
  match s with
  | ⟨code, pool, journal⟩ =>
    match x code with
    | .ok a code => .ok a ⟨code, pool, journal⟩
    | .error e code => .error e ⟨code, pool, journal⟩

instance : MonadLift Lowering Emitting := ⟨onBench⟩

instance : MonadLift Patching Emitting := ⟨onCode⟩

/-! ## Instructions -/

/-- The offset of the next instruction. -/
def here : Emitting Nat :=
  return (← get).code.size

/-- Emit an instruction, and give its offset. -/
def emit (i : Instruction) : Emitting Nat :=
  modifyGet fun s =>
    match s with
    | ⟨code, pool, journal⟩ => (code.size, ⟨code.push i.encode, pool, journal⟩)

/-- Make the value at an operand available at `dest`. -/
def materialize (operand dest : Operand) : Emitting Operand := do
  if operand ≠ dest then
    let _ ← emit ⟨.move, dest, operand, .unused⟩
  return dest

/-- Keep the order from left to right. A variable is read only when the instruction
runs that uses it, so it is copied to the stack first if code of `later` nodes comes in
between. -/
def pin (operand : Operand) (later : List Node) : Emitting Operand :=
  if operand.isVariable && later.any fun node => !node.isInPlace then
    materialize operand .stack
  else return operand

/-- Drop a value that nobody reads. -/
def drop (operand : Operand) : Emitting Unit := do
  if operand.isStack then
    let _ ← emit (.bare .pop)

/-! ## Jumps -/

/-- Let an operand of the instruction at `offset` lead to the end of the words. -/
def patchJump (offset : Nat) (slot : Slot) : Emitting Unit := do
  let target ← here
  let d := distance offset target
  Patching.patch offset slot d
  modify fun s => { s with journal := s.journal.record (.patched offset target d) }

/-- Emit a jump back to `target`. -/
def jumpBack (target : Nat) : Emitting Unit := do
  let d := distance (← here) target
  let d ← Lowering.number d .jumpOffset
  let _ ← emit ⟨.jump, d, .unused, .unused⟩

end Emitting

end YieldMachine
