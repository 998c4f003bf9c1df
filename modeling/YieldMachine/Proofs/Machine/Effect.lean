import YieldMachine.Proofs.Compile.Code
import YieldMachine.Proofs.Value.Functions
import YieldMachine.Machine.Step

/-!
# Effects of instructions

Opcodes that differ only in the operation they apply have one effect. An effect says
how many values an instruction takes off the stack and how many it puts there; what an
instruction asks of the program it stands in, whatever the state, is `Legal`.

    execute program limits ip i = i.effect.run program limits ip i
-/

namespace YieldMachine

/-! ## Effects -/

/-- What an opcode does, up to the operation it applies. -/
inductive Effect where
  | unary (f : Value → Value)
  | binary (f : Value → Value → Value)
  | pop
  | slice
  | makeArray
  | jump
  | jumpIfFalse
  | makeFunction
  | call
  | ret
  | openGroup
  | spawn
  | endIteration
  | resume
  | yield
  | closeGroup
  | readLine
  | write (ending : String)
  | exit

/-- The effect of an opcode. -/
def Opcode.effect : Opcode → Effect
  | .move => .unary id
  | .pop => .pop
  | .neg => .unary UnaryOp.negate.apply
  | .not => .unary UnaryOp.not.apply
  | .len => .unary Value.len
  | .toInt => .unary Value.toInt
  | .toFloat => .unary Value.toFloat
  | .toStr => .unary Value.toStr
  | .add => .binary BinaryOp.add.apply
  | .sub => .binary BinaryOp.subtract.apply
  | .mul => .binary BinaryOp.multiply.apply
  | .div => .binary BinaryOp.divide.apply
  | .mod => .binary BinaryOp.modulo.apply
  | .eq => .binary BinaryOp.equal.apply
  | .ne => .binary BinaryOp.notEqual.apply
  | .lt => .binary BinaryOp.less.apply
  | .le => .binary BinaryOp.lessEqual.apply
  | .gt => .binary BinaryOp.greater.apply
  | .ge => .binary BinaryOp.greaterEqual.apply
  | .and => .binary BinaryOp.and.apply
  | .or => .binary BinaryOp.or.apply
  | .index => .binary Value.index
  | .slice => .slice
  | .makeArray => .makeArray
  | .jump => .jump
  | .jumpIfFalse => .jumpIfFalse
  | .makeFunction => .makeFunction
  | .call => .call
  | .ret => .ret
  | .iterBegin => .openGroup
  | .spawn => .spawn
  | .endIter => .endIteration
  | .resume => .resume
  | .yield => .yield
  | .iterEnd => .closeGroup
  | .readLine => .readLine
  | .write => .write ""
  | .print => .write "\n"
  | .exit => .exit

namespace Instruction

/-- The effect of an instruction. -/
def effect (i : Instruction) : Effect :=
  i.opcode.effect

end Instruction

/-- Bring about an effect. -/
def Effect.run (program : Program) (limits : Limits) (ip : Nat) (i : Instruction) :
    Effect → Action Flow
  | .unary f => do Action.unary program limits i f; return .next
  | .binary f => do Action.binary program limits i f; return .next
  | .pop => do discard Action.pop; return .next
  | .slice => do Action.slice program limits i; return .next
  | .makeArray => do Action.makeArray program limits i; return .next
  | .jump => do Action.goto (← Action.target program ip i.a); return .next
  | .jumpIfFalse => do Action.jumpIfFalse program ip i; return .next
  | .makeFunction => do Action.makeFunction program limits ip i.a i.b i.c; return .next
  | .call => do Action.call program limits i.a i.b; return .next
  | .ret => do Action.ret program limits ip i.b; return .next
  | .openGroup => do Action.openGroup; return .next
  | .spawn => do Action.spawn program limits ip i.a i.b; return .next
  | .endIteration => do Action.endIteration ip; return .next
  | .resume => do Action.resume program limits ip i.a i.b; return .next
  | .yield => do Action.yield program limits ip i.b; return .next
  | .closeGroup => do Action.closeGroup ip; return .next
  | .readLine => do Action.readLine program limits i; return .next
  | .write ending => do Action.write program limits i ending; return .next
  | .exit => do return .exit (← Action.fetch program i.b).exitStatus

theorem Action.execute_eq (program : Program) (limits : Limits) (ip : Nat) (i : Instruction) :
    Action.execute program limits ip i = i.effect.run program limits ip i := by
  obtain ⟨opcode, a, b, c⟩ := i
  cases opcode <;> rfl

theorem Instruction.opcode_of_yield {i : Instruction} (h : i.effect = .yield) :
    i.opcode = .yield := by
  obtain ⟨opcode, a, b, c⟩ := i
  cases opcode <;> first | rfl | cases h

/-- An effect applies only operations that make no functions of their own. -/
def Effect.Plain (F : Func → Prop) : Effect → Prop
  | .unary f => ∀ v : Value, v.AllFunctions F → (f v).AllFunctions F
  | .binary f => ∀ v w : Value, v.AllFunctions F → w.AllFunctions F → (f v w).AllFunctions F
  | _ => True

theorem Opcode.effect_plain (F : Func → Prop) (op : Opcode) : op.effect.Plain F := by
  cases op with
  | move => exact fun v hv => hv
  | neg | not => exact fun v _ => UnaryOp.apply_allFunctions _ v
  | len => exact fun v _ => v.len_allFunctions
  | toInt => exact fun v _ => v.toInt_allFunctions
  | toFloat => exact fun v _ => v.toFloat_allFunctions
  | toStr => exact fun v _ => trivial
  | add | sub | mul | div | mod | eq | ne | lt | le | gt | ge | and | or =>
    exact fun v w hv hw => BinaryOp.apply_allFunctions _ hv hw
  | index => exact fun v w hv _ => Value.index_allFunctions hv
  | _ => trivial

/-! ## What stands on the stack -/

/-- How many values of the stack an operand stands for. -/
def Operand.cells (o : Operand) : Nat :=
  if o.isStack then 1 else 0

namespace Instruction

/-- How many values an instruction takes off the stack of its context. -/
def takes (i : Instruction) : Nat :=
  match i.effect with
  | .unary _ | .write _ | .jumpIfFalse | .ret | .yield | .exit => i.b.cells
  | .binary _ => i.b.cells + i.c.cells
  | .pop => 1
  | .slice => i.a.cells + i.b.cells + i.c.cells
  | .makeArray => i.b.address.toNat
  | .call => i.b.cells + i.a.address.toNat
  | _ => 0

/-- How many values an instruction puts on the stack before the one behind it runs. -/
def gives (i : Instruction) : Nat :=
  match i.effect with
  | .unary _ | .binary _ | .makeArray | .readLine | .write _ => i.a.cells
  | .slice | .makeFunction | .call => 1
  | _ => 0

end Instruction

/-! ## What a program must hold -/

namespace Program

/-- Does the program hold what an operand needs to be read? -/
def Readable (program : Program) (o : Operand) : Prop :=
  match o.mode with
  | .global => ∃ name, Action.at? program.pool.constants o.address = some (.string name)
  | .data => ∃ v, Action.at? program.pool.constants o.address = some v ∧ v.key?.isSome
  | _ => True

/-- Can an operand be written? -/
def Writable (program : Program) (o : Operand) : Prop :=
  match o.mode with
  | .global => ∃ name, Action.at? program.pool.constants o.address = some (.string name)
  | .data | .immediate => False
  | _ => True

/-- Where a jump from `ip` by an operand's address leads. -/
def jumpTarget (ip : Nat) (o : Operand) : Nat :=
  ((ip : Int) + 1 + o.address).toNat

/-- Does a jump from `ip` stay in the program? -/
def InRange (program : Program) (ip : Nat) (o : Operand) : Prop :=
  0 ≤ (ip : Int) + 1 + o.address ∧ (ip : Int) + 1 + o.address ≤ program.code.size

end Program

/-- Does the program hold what an instruction at `ip` refers to? -/
def Instruction.Legal (program : Program) (ip : Nat) (i : Instruction) : Prop :=
  match i.effect with
  | .unary _ | .write _ => program.Readable i.b ∧ program.Writable i.a
  | .binary _ => program.Readable i.b ∧ program.Readable i.c ∧ program.Writable i.a
  | .slice => program.Readable i.a ∧ program.Readable i.b ∧ program.Readable i.c
  | .makeArray => 0 ≤ i.b.address ∧ program.Writable i.a
  | .jump | .makeFunction => program.InRange ip i.a
  | .jumpIfFalse => program.Readable i.b ∧ program.InRange ip i.a
  | .call | .ret | .yield | .exit => program.Readable i.b
  | .spawn => program.InRange ip i.a ∧ program.InRange ip i.b
  | .resume => program.InRange ip i.b
  | .readLine => program.Writable i.a
  | .pop | .openGroup | .endIteration | .closeGroup => True

end YieldMachine
