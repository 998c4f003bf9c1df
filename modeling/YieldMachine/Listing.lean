import YieldMachine.Instruction.Word
import YieldMachine.Pool
import YieldMachine.Text.Quoted

/-!
# Listings

A listing has one line for each word: its offset with at least four digits, the
instruction, and behind a semicolon the constants and the targets that its operands
stand for. A word that is no instruction is listed as it is.
-/

namespace YieldMachine

open Decimal

/-! ## Algorithm -/

/-- An integer of at least four characters, zeros filled in behind the sign. -/
def padOffset (n : Int) : String :=
  let digits := digitChars n.natAbs
  let sign := if n < 0 then ['-'] else []
  String.ofList (sign ++ List.replicate (4 - sign.length - digits.length) '0' ++ digits)

/-- The constant that an operand stands for; a text is quoted unless it names a global. -/
def constantNote? (pool : Pool) (o : Operand) : Option String :=
  if (o.mode = .data ∨ o.mode = .global) ∧ 0 ≤ o.address then
    (pool.get? o.address.toNat).map fun v =>
      let shown := match o.mode, v with
        | .global, .string name => name
        | _, .string s => Text.quote s
        | _, v => v.text
      o.text ++ " = " ++ shown
  else none

/-- The targets that an instruction at `ip` can go to. -/
def targetNotes (ip : Nat) (i : Instruction) : List String :=
  let target (o : Operand) := padOffset ((ip : Int) + 1 + o.address)
  match i.opcode with
  | .jump | .jumpIfFalse => ["-> " ++ target i.a]
  | .spawn => ["cont " ++ target i.a, "exit " ++ target i.b]
  | .resume => ["exit " ++ target i.b]
  | .makeFunction => ["entry " ++ target i.a]
  | _ => []

/-- What stands behind an instruction: its constants, then its targets. -/
def notes (pool : Pool) (ip : Nat) (i : Instruction) : String :=
  match [i.a, i.b, i.c].filterMap (constantNote? pool) ++ targetNotes ip i with
  | [] => ""
  | all => "  ; " ++ ", ".intercalate all

/-- The line of one word. -/
def listingLine (pool : Pool) (ip : Nat) (w : Word) : String :=
  let shown := match Instruction.decode w with
    | .ok i => i.text ++ notes pool ip i
    | .error e => "<" ++ e.message ++ "> 0x" ++ Text.hexPadded 16 w.toNat
  padOffset ip ++ " " ++ shown ++ "\n"

/-- The lines of the words from `start` up to `stop`. -/
def listingRange (code : Array Word) (pool : Pool) (start stop : Nat) : String :=
  let stop := min stop code.size
  (List.range' start (stop - start)).foldl (fun out ip =>
    match code[ip]? with
    | some w => out ++ listingLine pool ip w
    | none => out) ""

/-- The lines of all words. -/
def listing (code : Array Word) (pool : Pool) : String :=
  listingRange code pool 0 code.size

end YieldMachine
