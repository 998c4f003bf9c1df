import YieldMachine.CompileError

/-!
# Operands

An operand is an addressing mode with a signed address of 16 bits: an immediate
number, a global by the pool index of its name, a slot of the innermost frame or of
the frame behind it, the stack, or a constant by its pool index.
-/

namespace YieldMachine

open Decimal

/-! ## Types -/

/-- How the address of an operand is understood. -/
inductive Mode where
  /-- The address itself is the value. -/
  | immediate
  /-- The pool index of a global's name. -/
  | global
  /-- A slot of the innermost frame. -/
  | frame
  /-- A slot of the frame behind the innermost. -/
  | closure
  /-- Popped when read and pushed when written. -/
  | stack
  /-- The pool index of a constant. -/
  | data
  deriving DecidableEq, Repr, Inhabited

/-- A mode with an address. -/
structure Operand where
  mode : Mode
  address : Int
  deriving DecidableEq, Repr, Inhabited

/-! ## Modes -/

/-- All modes, each at the place of its number. -/
def Mode.all : Array Mode :=
  #[.immediate, .global, .frame, .closure, .stack, .data]

/-- The number of a mode. -/
def Mode.code (mode : Mode) : Nat :=
  mode.ctorIdx

/-- The mode with a number. -/
def Mode.ofCode? (n : Nat) : Option Mode :=
  Mode.all[n]?

/-- The name of a mode. -/
def Mode.name : Mode → String
  | .immediate => "immediate"
  | .global => "global"
  | .frame => "local"
  | .closure => "closure"
  | .stack => "stack"
  | .data => "data"

/-- The mode with a name. -/
def Mode.ofName? (name : String) : Option Mode :=
  Mode.all.find? fun mode => mode.name == name

/-! ## Operands -/

namespace Operand

/-- What an unused operand holds. -/
def unused : Operand := ⟨.immediate, 0⟩

/-- The stack. -/
def stack : Operand := ⟨.stack, 0⟩

/-- Does an address fit in its 16 bits? -/
def fits (address : Int) : Bool :=
  -32768 ≤ address && address ≤ 32767

/-- An operand whose address fits. -/
def checked (mode : Mode) (address : Int) (field : AddressField) : Except CompileError Operand :=
  if fits address then .ok ⟨mode, address⟩ else .error (.addressOverflow field address)

/-- A number in place of an address. -/
def immediate (value : Int) (field : AddressField) : Except CompileError Operand :=
  checked .immediate value field

/-- A constant of the pool. -/
def data (index : Int) : Except CompileError Operand :=
  checked .data index .dataIndex

/-- The global whose name is a constant of the pool. -/
def global (index : Int) : Except CompileError Operand :=
  checked .global index .globalName

/-- A slot of the innermost frame. -/
def frame (slot : UInt16) : Except CompileError Operand :=
  checked .frame slot.toNat .localSlot

/-- A slot of the frame behind the innermost. -/
def closure (slot : UInt16) : Except CompileError Operand :=
  checked .closure slot.toNat .closureSlot

/-- Is it the stack, at whatever address? -/
def isStack (o : Operand) : Bool :=
  o.mode = .stack

/-- Is it a variable, read where the instruction stands that uses it? -/
def isVariable (o : Operand) : Bool :=
  match o.mode with
  | .frame | .closure | .global => true
  | _ => false

/-- The text of an operand in a listing. -/
def text (o : Operand) : String :=
  match o.mode with
  | .immediate => "#" ++ intText o.address
  | .stack => "stack"
  | mode => mode.name ++ "[" ++ intText o.address ++ "]"

end Operand

/-! ## Lemmas -/

theorem Mode.ofCode?_code (mode : Mode) : Mode.ofCode? mode.code = some mode := by
  cases mode <;> rfl

theorem Mode.code_lt (mode : Mode) : mode.code < 6 := by
  cases mode <;> decide

end YieldMachine
