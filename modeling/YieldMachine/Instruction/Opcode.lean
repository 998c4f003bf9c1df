/-!
# Opcodes

The 39 operations of the machine, numbered from 0 in the order of the list, and the
names they have in a listing.

    Opcode.ofCode? op.code = some op
-/

namespace YieldMachine

/-! ## Types -/

/-- The operations of the machine. An instruction has three operands A, B and C. -/
inductive Opcode where
  /-- A ← B -/
  | move
  /-- Drop the top of the stack. -/
  | pop
  | neg | not | len | toInt | toFloat | toStr
  | add | sub | mul | div | mod
  | eq | ne | lt | le | gt | ge
  | and | or
  /-- A ← B[C] -/
  | index
  /-- Push A[B:C]. -/
  | slice
  /-- A ← the array of the top B stack values. -/
  | makeArray
  /-- Jump by A. -/
  | jump
  /-- Jump by A when B is false. -/
  | jumpIfFalse
  /-- Push a function with its entry at offset A, B parameters and a frame of C slots. -/
  | makeFunction
  /-- Call B with A arguments from the stack; the result is pushed. -/
  | call
  /-- Return B to the caller. -/
  | ret
  /-- Open the producer group of a for loop. -/
  | iterBegin
  /-- Start a producer; the consumer goes on at A and leaves at B. -/
  | spawn
  /-- The running producer has no more values. -/
  | endIter
  /-- Continue producer A; leave the loop at B when it runs dry. -/
  | resume
  /-- Hand B to the consumer. -/
  | yield
  /-- Close the producer group and discard what is left in it. -/
  | iterEnd
  | readLine | write | print
  /-- Stop the machine with status B. -/
  | exit
  deriving DecidableEq, Repr, Inhabited

/-! ## Numbers and names -/

/-- All opcodes, each at the place of its number. -/
def Opcode.all : Array Opcode :=
  #[.move, .pop, .neg, .not, .len, .toInt, .toFloat, .toStr, .add, .sub, .mul, .div, .mod,
    .eq, .ne, .lt, .le, .gt, .ge, .and, .or, .index, .slice, .makeArray, .jump, .jumpIfFalse,
    .makeFunction, .call, .ret, .iterBegin, .spawn, .endIter, .resume, .yield, .iterEnd,
    .readLine, .write, .print, .exit]

/-- The number of an opcode. -/
def Opcode.code (op : Opcode) : Nat :=
  op.ctorIdx

/-- The opcode with a number. -/
def Opcode.ofCode? (n : Nat) : Option Opcode :=
  Opcode.all[n]?

/-- The name of an opcode in a listing. -/
def Opcode.name : Opcode → String
  | .move => "move"
  | .pop => "pop"
  | .neg => "neg"
  | .not => "not"
  | .len => "len"
  | .toInt => "toint"
  | .toFloat => "tofloat"
  | .toStr => "tostr"
  | .add => "add"
  | .sub => "sub"
  | .mul => "mul"
  | .div => "div"
  | .mod => "mod"
  | .eq => "eq"
  | .ne => "ne"
  | .lt => "lt"
  | .le => "le"
  | .gt => "gt"
  | .ge => "ge"
  | .and => "and"
  | .or => "or"
  | .index => "index"
  | .slice => "slice"
  | .makeArray => "mkarray"
  | .jump => "jmp"
  | .jumpIfFalse => "jmpf"
  | .makeFunction => "mkfunc"
  | .call => "call"
  | .ret => "ret"
  | .iterBegin => "iterbegin"
  | .spawn => "spawn"
  | .endIter => "enditer"
  | .resume => "resume"
  | .yield => "yield"
  | .iterEnd => "iterend"
  | .readLine => "readline"
  | .write => "write"
  | .print => "print"
  | .exit => "exit"

/-- The opcode with a name. -/
def Opcode.ofName? (name : String) : Option Opcode :=
  Opcode.all.find? fun op => op.name == name

/-! ## Lemmas -/

theorem Opcode.ofCode?_code (op : Opcode) : Opcode.ofCode? op.code = some op := by
  cases op <;> rfl

theorem Opcode.code_lt (op : Opcode) : op.code < 39 := by
  cases op <;> decide

end YieldMachine
