import YieldMachine.Machine.Call
import YieldMachine.Machine.Switch
import YieldMachine.Value.Conversion
import YieldMachine.Value.Sequence

/-!
# Steps and runs

A step executes the instruction at the place of the active context. It leads to the
next state, or ends the run: at the end of the code, by an exit, or with a fault. A run
takes steps until one ends it, or until its fuel is spent; more fuel never changes an
end that was reached.

    step program limits m = .running m'   one step of a run
    run program limits n m = .running m'  after n steps without an end
-/

namespace YieldMachine

/-! ## Types -/

/-- Where a step leads. -/
inductive Step where
  /-- The run goes on. -/
  | running (m : Machine)
  /-- The code came to its end. -/
  | finished (v : Value) (m : Machine)
  /-- The program stopped itself. -/
  | exited (status : Int64) (m : Machine)
  | faulted (fault : Fault) (m : Machine)

/-- What an instruction asks for. -/
inductive Flow where
  | next
  | exit (status : Int64)

namespace Action

/-! ## Instructions -/

/-- Apply an operation to B, and store into A. -/
def unary (program : Program) (limits : Limits) (i : Instruction) (f : Value → Value) :
    Action Unit := do
  let v ← fetch program i.b
  store program limits i.a (f v)

/-- Apply an operation to B and C, and store into A. C is read first, so that the stack
holds them in their order. -/
def binary (program : Program) (limits : Limits) (i : Instruction) (f : Value → Value → Value) :
    Action Unit := do
  let right ← fetch program i.c
  let left ← fetch program i.b
  store program limits i.a (f left right)

/-- Push A[B:C]. -/
def slice (program : Program) (limits : Limits) (i : Instruction) : Action Unit := do
  let stop ← fetch program i.c
  let start ← fetch program i.b
  let target ← fetch program i.a
  push limits (target.slice start stop)

/-- Gather the top values of the stack into an array. -/
def makeArray (program : Program) (limits : Limits) (i : Instruction) : Action Unit := do
  let stack := (← get).active.stack
  let count := i.b.address
  if 0 ≤ count ∧ count ≤ stack.size then
    let start := stack.size - count.toNat
    let items := stack.extract start stack.size
    truncate start
    store program limits i.a (.array items)
  else throw .stackUnderflow

/-- Jump by A when B is false. -/
def jumpIfFalse (program : Program) (ip : Nat) (i : Instruction) : Action Unit := do
  match ← fetch program i.b with
  | .bool false => goto (← target program ip i.a)
  | .bool true => return
  | other => throw (.nonBoolCondition other.kind)

/-- Read a line into A; nil at the end of the input. -/
def readLine (program : Program) (limits : Limits) (i : Instruction) : Action Unit := do
  let line ← modifyGet fun m =>
    match m with
    | ⟨active, consumers, globals, heap, console, journal⟩ =>
      match console.read with
      | (line, console) => (line, ⟨active, consumers, globals, heap, console, journal⟩)
  store program limits i.a (line.elim .nil .string)

/-- Write B, with `ending` behind it, and store nil into A. -/
def write (program : Program) (limits : Limits) (i : Instruction) (ending : String) :
    Action Unit := do
  let v ← fetch program i.b
  modify fun m =>
    match m with
    | ⟨active, consumers, globals, heap, console, journal⟩ =>
      ⟨active, consumers, globals, heap, console.write (v.text ++ ending), journal⟩
  store program limits i.a .nil

/-- Execute an instruction that stands at `ip`. -/
def execute (program : Program) (limits : Limits) (ip : Nat) (i : Instruction) : Action Flow := do
  match i.opcode with
  | .move => unary program limits i id
  | .pop => discard pop
  | .neg => unary program limits i UnaryOp.negate.apply
  | .not => unary program limits i UnaryOp.not.apply
  | .len => unary program limits i Value.len
  | .toInt => unary program limits i Value.toInt
  | .toFloat => unary program limits i Value.toFloat
  | .toStr => unary program limits i Value.toStr
  | .add => binary program limits i BinaryOp.add.apply
  | .sub => binary program limits i BinaryOp.subtract.apply
  | .mul => binary program limits i BinaryOp.multiply.apply
  | .div => binary program limits i BinaryOp.divide.apply
  | .mod => binary program limits i BinaryOp.modulo.apply
  | .eq => binary program limits i BinaryOp.equal.apply
  | .ne => binary program limits i BinaryOp.notEqual.apply
  | .lt => binary program limits i BinaryOp.less.apply
  | .le => binary program limits i BinaryOp.lessEqual.apply
  | .gt => binary program limits i BinaryOp.greater.apply
  | .ge => binary program limits i BinaryOp.greaterEqual.apply
  | .and => binary program limits i BinaryOp.and.apply
  | .or => binary program limits i BinaryOp.or.apply
  | .index => binary program limits i Value.index
  | .slice => slice program limits i
  | .makeArray => makeArray program limits i
  | .jump => goto (← target program ip i.a)
  | .jumpIfFalse => jumpIfFalse program ip i
  | .makeFunction => makeFunction program limits ip i.a i.b i.c
  | .call => call program limits i.a i.b
  | .ret => ret program limits ip i.b
  | .iterBegin => openGroup
  | .spawn => spawn program limits ip i.a i.b
  | .endIter => endIteration ip
  | .resume => resume program limits ip i.a i.b
  | .yield => yield program limits ip i.b
  | .iterEnd => closeGroup ip
  | .readLine => readLine program limits i
  | .write => write program limits i ""
  | .print => write program limits i "\n"
  | .exit => return .exit (← fetch program i.b).exitStatus
  return .next

end Action

/-! ## Runs -/

namespace Machine

/-- The end of the code: the value is the top of the stack, or nil. -/
def finish (m : Machine) (ip : Nat) : Step :=
  if m.consumers.isEmpty then .finished (m.active.stack.back?.getD .nil) m
  else .faulted ⟨.contextMisuse .endInsideProducer, ip⟩ m

/-- One step. -/
def step (program : Program) (limits : Limits) (m : Machine) : Step :=
  let ip := m.active.ip
  match program.code[ip]? with
  | none => m.finish ip
  | some w =>
    match Instruction.decode w with
    | .error e => .faulted ⟨e.cause, ip⟩ m
    | .ok i =>
      let m := if limits.trace then m.record (.executing ip i m.consumers.size) else m
      match Action.execute program limits ip i (m.goto (ip + 1)) with
      | .ok .next m => .running m
      | .ok (.exit status) m => .exited status m
      | .error cause m => .faulted ⟨cause, ip⟩ m

/-- Steps until one ends the run, at most as many as there is fuel. -/
def run (program : Program) (limits : Limits) : Nat → Machine → Step
  | 0, m => .running m
  | fuel + 1, m =>
    match m.step program limits with
    | .running m => run program limits fuel m
    | ending => ending

end Machine

/-! ## Lemmas -/

/-- Did a step lead to an end? -/
def Step.isEnd : Step → Bool
  | .running _ => false
  | _ => true

theorem Machine.run_succ (program : Program) (limits : Limits) (fuel : Nat) (m : Machine) :
    Machine.run program limits (fuel + 1) m =
      match m.step program limits with
      | .running m => Machine.run program limits fuel m
      | ending => ending := rfl

/-- Fuel adds up: a run goes on where one with less fuel had to stop. -/
theorem Machine.run_add (program : Program) (limits : Limits) (fuel more : Nat) (m : Machine) :
    Machine.run program limits (fuel + more) m =
      match Machine.run program limits fuel m with
      | .running m => Machine.run program limits more m
      | ending => ending := by
  induction fuel generalizing m with
  | zero => rw [Nat.zero_add]; rfl
  | succ fuel ih =>
    rw [Nat.add_right_comm, Machine.run_succ, Machine.run_succ]
    cases m.step program limits with
    | running m' => exact ih m'
    | finished v m' => rfl
    | exited status m' => rfl
    | faulted fault m' => rfl

/-- An end that was reached stays with more fuel. -/
theorem Machine.run_add_of_isEnd {program : Program} {limits : Limits} {fuel : Nat} {m : Machine}
    (h : (Machine.run program limits fuel m).isEnd) (more : Nat) :
    Machine.run program limits (fuel + more) m = Machine.run program limits fuel m := by
  rw [Machine.run_add]
  split
  · next hrun => rw [hrun] at h; simp [Step.isEnd] at h
  · rfl

/-! ## Outcomes -/

/-- How a run that ended came out, and the machine it leaves. -/
structure Outcome where
  result : Except Fault Value
  exitCode : Option Int64
  machine : Machine

/-- Run from `start` until the end. After a fault nothing is left running. None when the
fuel does not suffice. -/
def Machine.runFrom (program : Program) (limits : Limits) (fuel start : Nat) (m : Machine) :
    Option Outcome :=
  match Machine.run program limits fuel (m.restart start) with
  | .running _ => none
  | .finished v m => some ⟨.ok v, none, m⟩
  | .exited status m => some ⟨.ok (.int status), some status, m⟩
  | .faulted fault m => some ⟨.error fault, none, m.restart program.code.size⟩

end YieldMachine
