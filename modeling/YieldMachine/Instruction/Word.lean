import YieldMachine.Instruction.Opcode
import YieldMachine.Instruction.Operand

/-!
# Instruction words

An instruction is packed into 64 bits: seven for the opcode, then for each of the
operands A, B and C three for the mode and sixteen for the address in two's
complement.

     63     57 56  54 53     38 37  35 34     19 18  16 15      0
     | opcode | modeA | addrA  | modeB | addrB  | modeC | addrC  |

`decode` reports a bad opcode before a bad mode, and modes in the order A, B, C.
-/

namespace YieldMachine

open Decimal

/-! ## Types -/

/-- A packed instruction. -/
abbrev Word := UInt64

/-- An instruction taken apart. -/
structure Instruction where
  opcode : Opcode
  a : Operand
  b : Operand
  c : Operand
  deriving DecidableEq, Repr, Inhabited

/-- Why a word is no instruction. -/
inductive DecodeError where
  | unknownOpcode (code : Nat)
  | unknownMode (code : Nat)
  deriving DecidableEq, Repr

/-- One of the three operands. -/
inductive Slot where
  | a | b | c
  deriving DecidableEq, Repr

/-! ## Packing -/

/-- The 19 bits of an operand; of the address only the low 16 are kept. -/
def Operand.bits (o : Operand) : Nat :=
  o.mode.code <<< 16 + (o.address % 0x10000).toNat

/-- The 16 bits of an address read as a signed number. -/
def signed (n : Nat) : Int :=
  if n < 0x8000 then n else (n : Int) - 0x10000

/-- Read an operand from the low 19 bits of a number. -/
def Operand.ofBits (n : Nat) : Except DecodeError Operand :=
  let code := n >>> 16 % 8
  match Mode.ofCode? code with
  | some mode => .ok ⟨mode, signed (n % 0x10000)⟩
  | none => .error (.unknownMode code)

/-- Pack an instruction. -/
def Instruction.encode (i : Instruction) : Word :=
  UInt64.ofNat (i.opcode.code <<< 57 + i.a.bits <<< 38 + i.b.bits <<< 19 + i.c.bits)

/-- Take a word apart. -/
def Instruction.decode (w : Word) : Except DecodeError Instruction :=
  let n := w.toNat
  let code := n >>> 57
  match Opcode.ofCode? code with
  | none => .error (.unknownOpcode code)
  | some opcode => do
    let a ← Operand.ofBits (n >>> 38)
    let b ← Operand.ofBits (n >>> 19)
    let c ← Operand.ofBits n
    return ⟨opcode, a, b, c⟩

/-- An instruction without operands. -/
def Instruction.bare (opcode : Opcode) : Instruction :=
  ⟨opcode, .unused, .unused, .unused⟩

/-! ## Patching -/

/-- How far the bits of an operand are from the low end of the word. -/
def Slot.shift : Slot → Nat
  | .a => 38
  | .b => 19
  | .c => 0

/-- The slot with a number, A being 0. -/
def Slot.ofNat? : Nat → Option Slot
  | 0 => some .a
  | 1 => some .b
  | 2 => some .c
  | _ => none

/-- Replace the address of one operand inside a word. -/
def Word.patch (w : Word) (slot : Slot) (address : Int) : Except CompileError Word :=
  if Operand.fits address then
    let n := w.toNat
    let unit := 1 <<< slot.shift
    let old := n / unit % 0x10000
    .ok (UInt64.ofNat (n - old * unit + (address % 0x10000).toNat * unit))
  else .error (.addressOverflow .jumpOffset address)

/-- Patching acts on code, which outlives a patch that is refused. -/
abbrev Patching := EStateM CompileError (Array Word)

/-- Replace the address of one operand of the instruction at `offset`. -/
def Patching.patch (offset : Nat) (slot : Slot) (address : Int) : Patching Unit := do
  match (← get)[offset]? with
  | some w =>
    match Word.patch w slot address with
    | .ok patched => modify fun code => code.setIfInBounds offset patched
    | .error e => throw e
  | none => return ()

/-- The code with one operand of the instruction at `offset` patched. -/
def patchCode (code : Array Word) (offset : Nat) (slot : Slot) (address : Int) :
    Except CompileError (Array Word) :=
  match (Patching.patch offset slot address).run code with
  | .ok _ patched => .ok patched
  | .error e _ => .error e

/-! ## Text -/

/-- The message of a decode error. -/
def DecodeError.message : DecodeError → String
  | .unknownOpcode code => "unknown opcode " ++ intText code
  | .unknownMode code => "unknown addressing mode " ++ intText code

/-- A name with blanks behind it, up to ten characters. -/
def padName (name : String) : String :=
  name ++ String.ofList (List.replicate (10 - name.length) ' ')

/-- The text of an instruction in a listing. -/
def Instruction.text (i : Instruction) : String :=
  padName i.opcode.name ++ " " ++ i.a.text ++ ", " ++ i.b.text ++ ", " ++ i.c.text

end YieldMachine
