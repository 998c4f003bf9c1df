import YieldMachine.Instruction.Word
import YieldMachine.Machine.Event
import YieldMachine.Pool
import YieldMachine.Tree.Basic

/-!
# The workbench

What compiling adds to whether or not it succeeds: the constants, which are shared by all
statements, and the events recorded. The operands that it makes are checked for the width of
their fields, and which opcode an operator becomes is written down here.
-/

namespace YieldMachine

/-! ## Types -/

/-- What compiling adds to, whether or not it succeeds. -/
structure Workbench where
  pool : Pool
  journal : Journal
  deriving Inhabited

/-- An action on the workbench may fail, and keeps the workbench when it does. -/
abbrev Lowering := EStateM CompileError Workbench

/-! ## Operands -/

/-- Check an operand. -/
def Lowering.check {α : Type} : Except CompileError α → Lowering α
  | .ok a => pure a
  | .error e => throw e

/-- The operand of a number that stands for itself. -/
def Lowering.number (value : Int) (field : AddressField) : Lowering Operand :=
  Lowering.check (Operand.immediate value field)

/-- Add a constant, and give its number. -/
def Lowering.add (v : Value) : Lowering Nat :=
  modifyGet fun bench =>
    match bench with
    | ⟨pool, journal⟩ =>
      match pool.add v with
      | (i, pool) => (i, ⟨pool, journal⟩)

/-- The operand of a constant. -/
def Lowering.constant (v : Value) : Lowering Operand := do
  let i ← Lowering.add v
  Lowering.check (Operand.data i)

/-- The operand of a variable. A global is addressed by the constant of its name. -/
def Lowering.variableOperand : Ref → Lowering Operand
  | .own slot => Lowering.check (Operand.frame slot)
  | .outer slot => Lowering.check (Operand.closure slot)
  | .global name => do
    let i ← Lowering.add (.string name)
    Lowering.check (Operand.global i)

/-- The value of a literal. -/
def Literal.value : Literal → Value
  | .int n => .int n
  | .float x => .float x
  | .bool b => .bool b
  | .string s => .string s
  | .nil => .nil

/-! ## Nodes and operators -/

/-- Does a node leave everything as it is, having no code? -/
def Node.isInPlace : Node → Bool
  | .literal _ | .ref _ => true
  | _ => false

/-- The opcode of a binary operator. -/
def BinaryOp.opcode : BinaryOp → Opcode
  | .add => .add
  | .subtract => .sub
  | .multiply => .mul
  | .divide => .div
  | .modulo => .mod
  | .equal => .eq
  | .notEqual => .ne
  | .less => .lt
  | .lessEqual => .le
  | .greater => .gt
  | .greaterEqual => .ge
  | .and => .and
  | .or => .or

/-- The opcode of a unary operator. -/
def UnaryOp.opcode : UnaryOp → Opcode
  | .negate => .neg
  | .not => .not

/-- The opcode of a primitive. -/
def Primitive.opcode : Primitive → Opcode
  | .readLine => .readLine
  | .write => .write
  | .print => .print
  | .toInt => .toInt
  | .toFloat => .toFloat
  | .toStr => .toStr
  | .exit => .exit

end YieldMachine
