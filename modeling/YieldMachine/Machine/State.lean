import YieldMachine.Console
import YieldMachine.Limits
import YieldMachine.Machine.Context
import YieldMachine.Machine.Event
import YieldMachine.Machine.Fault
import YieldMachine.Memory.Globals
import YieldMachine.Program

/-!
# The state of the machine

One context is active; consumers that wait for a producer stand behind it, the
innermost last. Globals, heap, console and journal outlive a run. Operands are read
and written here: an action works on a machine and may fail with a cause, and keeps
what it did until then.
-/

namespace YieldMachine

/-! ## Types -/

/-- The state of a machine. -/
structure Machine where
  active : Context
  consumers : Array Context
  globals : Globals
  heap : Heap
  console : Console
  journal : Journal
  deriving Inhabited

/-- Something a machine does. -/
abbrev Action := EStateM Cause Machine

/-! ## States -/

/-- A context that starts at `ip` with nothing but its frames. -/
def Context.start (ip : Nat) (frames : Chain) : Context :=
  ⟨ip, #[], frames, #[], #[], none⟩

namespace Machine

/-- A machine that has not run, with a console and a journal. -/
def fresh (console : Console) (journal : Journal) : Machine :=
  ⟨.start 0 #[], #[], .empty, #[], console, journal⟩

/-- Forget what was running and start at `ip`. -/
def restart (m : Machine) (ip : Nat) : Machine :=
  { m with active := .start ip #[], consumers := #[] }

/-- Record an event. -/
def record (m : Machine) (e : Event) : Machine :=
  match m with
  | ⟨active, consumers, globals, heap, console, journal⟩ =>
    ⟨active, consumers, globals, heap, console, journal.record e⟩

/-- Go on at `ip`. -/
def goto (m : Machine) (ip : Nat) : Machine :=
  { m with active := { m.active with ip } }

end Machine

namespace Action

/-! ## The operand stack -/

/-- Push a value. -/
def push (limits : Limits) (v : Value) : Action Unit := do
  let m ← get
  if limits.maxStack ≤ m.active.stack.size then throw (.stackOverflow limits.maxStack)
  set { m with active := { m.active with stack := m.active.stack.push v } }

/-- Pop a value. -/
def pop : Action Value := do
  let m ← get
  match m.active.stack.back? with
  | none => throw .stackUnderflow
  | some v =>
    set { m with active := { m.active with stack := m.active.stack.pop } }
    return v

/-- Drop values down to a height. -/
def truncate (height : Nat) : Action Unit :=
  modify fun m => { m with active := { m.active with stack := m.active.stack.shrink height } }

/-- Go on at `ip`. -/
def goto (ip : Nat) : Action Unit :=
  modify fun m => m.goto ip

/-- Record an event. -/
def record (e : Event) : Action Unit :=
  modify fun m => m.record e

/-! ## Operands -/

/-- The element at a signed place. -/
def at? {α : Type} (items : Array α) (i : Int) : Option α :=
  if 0 ≤ i then items[i.toNat]? else none

/-- The name that a global operand stands for. -/
def globalName (program : Program) (index : Int) : Action String :=
  match at? program.pool.constants index with
  | some (.string name) => pure name
  | some _ => throw (.invalidGlobalName index)
  | none => throw (.dataOutOfRange index)

/-- The frame `depth` places behind the innermost. -/
def frameAt (depth : Nat) : Action FrameId := do
  match (← get).active.frames.at? depth with
  | some id => return id
  | none => throw .frameUnderflow

/-- Read a slot of a frame. -/
def readSlot (depth : Nat) (slot : Int) : Action Value := do
  let id ← frameAt depth
  let frame := (← get).heap.frame id
  match at? frame slot with
  | some v => return v
  | none => throw (.slotOutOfRange slot frame.size)

/-- Write a slot of a frame. -/
def writeSlot (depth : Nat) (slot : Int) (v : Value) : Action Unit := do
  let id ← frameAt depth
  let size := ((← get).heap.frame id).size
  if 0 ≤ slot ∧ slot < size then
    modify fun m =>
      match m with
      | ⟨active, consumers, globals, heap, console, journal⟩ =>
        ⟨active, consumers, globals, heap.store id slot.toNat v, console, journal⟩
  else throw (.slotOutOfRange slot size)

/-- Read an operand; the stack is popped. -/
def fetch (program : Program) (o : Operand) : Action Value :=
  match o.mode with
  | .immediate => return .int (Int64.ofInt o.address)
  | .global => do
    let name ← globalName program o.address
    return (← get).globals.get name
  | .frame => readSlot 0 o.address
  | .closure => readSlot 1 o.address
  | .stack => pop
  | .data =>
    match at? program.pool.constants o.address with
    | some v => return v
    | none => throw (.dataOutOfRange o.address)

/-- Write an operand; the stack is pushed. -/
def store (program : Program) (limits : Limits) (o : Operand) (v : Value) : Action Unit :=
  match o.mode with
  | .stack => push limits v
  | .global => do
    let name ← globalName program o.address
    modify fun m =>
      match m with
      | ⟨active, consumers, globals, heap, console, journal⟩ =>
        ⟨active, consumers, globals.set name v, heap, console, journal⟩
  | .frame => writeSlot 0 o.address v
  | .closure => writeSlot 1 o.address v
  | .immediate | .data => throw .invalidStoreTarget

/-- Where a jump from `ip` by an operand's address goes. The end of the code is a target. -/
def target (program : Program) (ip : Nat) (o : Operand) : Action Nat :=
  let t := (ip : Int) + 1 + o.address
  if 0 ≤ t ∧ t ≤ program.code.size then return t.toNat else throw (.jumpOutOfRange t)

end Action

end YieldMachine
