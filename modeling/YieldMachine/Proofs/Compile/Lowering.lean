import YieldMachine.Compile.Emission

/-!
# Pieces of code

What a node compiles to can be said without emitting anything: as a piece of code, together
with the operand at which its value can be read. Jumps are relative, so a piece does not depend
on where it stands; its offset is known only to the journal.

`lower offset dest node` gives the piece of a node that will stand at `offset`, with its jumps
filled in. It fails where compiling fails, and does the same to the workbench. Everything about
compiled code is proved from here.
-/

namespace YieldMachine

open Lowering

/-! ## Pieces -/

/-- Code, and where its value can be read when it has run. -/
structure Piece where
  code : Array Instruction
  result : Operand
  deriving Inhabited

/-- Make the value at an operand available at `dest`. -/
def materialize (operand dest : Operand) : Array Instruction :=
  if operand = dest then #[] else #[⟨.move, dest, operand, .unused⟩]

/-- Drop a value that nobody reads. -/
def dropCode (operand : Operand) : Array Instruction :=
  if operand.isStack then #[.bare .pop] else #[]

/-- Keep the order from left to right. A variable is read only when the instruction
runs that uses it, so it is copied to the stack first if code of `later` nodes comes in
between. -/
def pin (piece : Piece) (later : List Node) : Piece :=
  if piece.result.isVariable && later.any fun node => !node.isInPlace then
    ⟨piece.code ++ materialize piece.result .stack, .stack⟩
  else piece

/-- The piece with its value on the stack. -/
def Piece.onStack (piece : Piece) : Array Instruction :=
  piece.code ++ materialize piece.result .stack

/-- The distance of a jump forward from `source` to `target`, once the target is known. -/
def Lowering.forward (source target : Nat) : Lowering Int := do
  let d := distance source target
  if Operand.fits d then
    modify fun bench => { bench with journal := bench.journal.record (.patched source target d) }
    return d
  else throw (.addressOverflow .jumpOffset d)

/-- An operand that holds the distance of a jump. -/
def Operand.jump (d : Int) : Operand := ⟨.immediate, d⟩

/-- Words with instructions packed behind them. -/
def Program.append (code : Array Word) (instructions : Array Instruction) : Array Word :=
  code ++ instructions.map Instruction.encode

/-! ## Assembly -/

/-- The code behind the `k`-th element of an array that is built in chunks: behind a
full chunk, and behind the last element, the chunk is gathered, and joined to those
before it. -/
def gather (k : Nat) (isLast : Bool) : Array Instruction :=
  if k % chunkLength = 0 ∨ isLast then
    let count := if k % chunkLength = 0 then chunkLength else k % chunkLength
    let chunk : Instruction := ⟨.makeArray, .stack, ⟨.immediate, count⟩, .unused⟩
    if chunkLength < k then #[chunk, ⟨.add, .stack, .stack, .stack⟩] else #[chunk]
  else #[]

/-- The producer of one iterator: the offset of its spawn, the distance to where the
consumer goes on, the iterator's own code with its end, and the variable it feeds. -/
structure Producer where
  offset : Nat
  cont : Int
  body : Array Instruction
  target : Operand

/-- The code of a producer, once the distance to the loop's exit is known. -/
def Producer.code (p : Producer) (exitDistance : Int) : Array Instruction :=
  #[⟨.spawn, .jump p.cont, .jump exitDistance, .unused⟩] ++ p.body ++
    #[⟨.move, p.target, .stack, .unused⟩]

/-- The code that takes the next value of producer `slot`. -/
def resumeCode (slot : Operand) (target : Operand) (exitDistance : Int) : Array Instruction :=
  #[⟨.resume, slot, .jump exitDistance, .unused⟩, ⟨.move, target, .stack, .unused⟩]

/-- Join pieces of code. -/
def concat (pieces : List (Array Instruction)) : Array Instruction :=
  pieces.foldl (· ++ ·) #[]

/-! ## Nodes -/

mutual

/-- The code of a node. -/
def lower (offset : Nat) (dest : Operand) : Node → Lowering Piece
  | .literal value => return ⟨#[], ← constant value.value⟩
  | .ref target => return ⟨#[], ← variableOperand target⟩
  | .assign target value => do
    let home ← variableOperand target
    let v ← lower offset home value
    return ⟨v.code ++ materialize v.result home, home⟩
  | .unary op operand => do
    let v ← lower offset .stack operand
    return ⟨v.code.push ⟨op.opcode, dest, v.result, .unused⟩, dest⟩
  | .binary left op right => do
    let l := pin (← lower offset .stack left) [right]
    let r ← lower (offset + l.code.size) .stack right
    return ⟨(l.code ++ r.code).push ⟨op.opcode, dest, l.result, r.result⟩, dest⟩
  | .index target place => do
    let t := pin (← lower offset .stack target) [place]
    let i ← lower (offset + t.code.size) .stack place
    return ⟨(t.code ++ i.code).push ⟨.index, dest, t.result, i.result⟩, dest⟩
  | .slice target start stop => do
    let t := pin (← lower offset .stack target) [start, stop]
    let i := pin (← lower (offset + t.code.size) .stack start) [stop]
    let j ← lower (offset + t.code.size + i.code.size) .stack stop
    return ⟨(t.code ++ i.code ++ j.code).push ⟨.slice, t.result, i.result, j.result⟩, .stack⟩
  | .len target => do
    let t ← lower offset .stack target
    return ⟨t.code.push ⟨.len, dest, t.result, .unused⟩, dest⟩
  | .array elements => do
    if elements.length ≤ chunkLength then
      let code ← lowerAll offset #[] elements
      let count ← number elements.length .arrayLength
      return ⟨code.push ⟨.makeArray, dest, count, .unused⟩, dest⟩
    else
      let code ← lowerChunks offset #[] 0 elements
      return ⟨code ++ materialize .stack dest, dest⟩
  | .block nodes => lowerBlock offset dest #[] nodes
  | .cond condition thenBranch elseBranch => do
    let c ← lower offset .stack condition
    let skipThen := offset + c.code.size
    let t := (← lower (skipThen + 1) .stack thenBranch).onStack
    let skipElse := skipThen + 1 + t.size
    let toElse ← forward skipThen (skipElse + 1)
    let e := (← lowerOption (skipElse + 1) elseBranch).onStack
    let toEnd ← forward skipElse (skipElse + 1 + e.size)
    return ⟨c.code.push ⟨.jumpIfFalse, .jump toElse, c.result, .unused⟩ ++ t ++
      #[⟨.jump, .jump toEnd, .unused, .unused⟩] ++ e, .stack⟩
  | .loop condition body => do
    let nil ← constant .nil
    let top := offset + 1
    let c ← lower top .stack condition
    let test := top + c.code.size
    let b := (← lower (test + 2) .stack body).onStack
    let back := test + 2 + b.size
    let toTop ← number (distance back top) .jumpOffset
    let toExit ← forward test (back + 1)
    return ⟨#[⟨.move, .stack, nil, .unused⟩] ++ c.code ++
      #[⟨.jumpIfFalse, .jump toExit, c.result, .unused⟩, .bare .pop] ++ b ++
      #[⟨.jump, toTop, .unused, .unused⟩], .stack⟩
  | .forEach refs iterators body => do
    if refs.length ≠ iterators.length then
      throw (.forArity refs.length iterators.length)
    let targets ← refs.mapM variableOperand
    let nil ← constant .nil
    let (producers, top) ← lowerIterators (offset + 2) targets [] iterators
    let b := (← lower (top + 1) .stack body).onStack
    let resumes := top + 1 + b.size
    let slots ← (List.range targets.length).mapM fun (i : Nat) => number i .producerSlot
    let back := resumes + 2 * targets.length
    let toTop ← number (distance back top) .jumpOffset
    let spawnExits ← producers.mapM fun p => forward p.offset (back + 1)
    let resumeExits ← (List.range targets.length).mapM fun i =>
      forward (resumes + 2 * i) (back + 1)
    return ⟨#[⟨.move, .stack, nil, .unused⟩, .bare .iterBegin] ++
      concat (List.zipWith Producer.code producers spawnExits) ++ #[.bare .pop] ++ b ++
      concat (List.zipWith (fun (slot, target) e => resumeCode slot target e)
        (slots.zip targets) resumeExits) ++
      #[⟨.jump, toTop, .unused, .unused⟩, .bare .iterEnd], .stack⟩
  | .yield value => do
    let v ← lower offset .stack value
    return ⟨v.code.push ⟨.yield, .unused, v.result, .unused⟩, ← constant .nil⟩
  | .function params frameSize body => do
    let b ← lower (offset + 1) .stack body
    let code := b.code.push ⟨.ret, .unused, b.result, .unused⟩
    let made := offset + 1 + code.size
    let skip ← forward offset made
    let entry ← number (distance made (offset + 1)) .functionEntry
    let paramCount ← number params.toInt64.toInt .parameterCount
    let slots := if params ≤ frameSize then frameSize else params
    let size ← number slots.toInt64.toInt .frameSize
    return ⟨#[⟨.jump, .jump skip, .unused, .unused⟩] ++ code ++
      #[⟨.makeFunction, entry, paramCount, size⟩], .stack⟩
  | .call callee args => do
    let code ← lowerAll offset #[] args
    let f ← lower (offset + code.size) .stack callee
    let count ← number args.length .argumentCount
    return ⟨(code ++ f.code).push ⟨.call, count, f.result, .unused⟩, .stack⟩
  | .ret value => do
    let v ← lower offset .stack value
    return ⟨v.code.push ⟨.ret, .unused, v.result, .unused⟩, ← constant .nil⟩
  | .primitive op args => do
    if args.length ≠ op.arity then
      throw (.primitiveArity op args.length)
    let arg ← lowerFirst offset args
    if op = .exit then
      return ⟨arg.code.push ⟨.exit, .unused, arg.result, .unused⟩, ← constant .nil⟩
    else
      return ⟨arg.code.push ⟨op.opcode, dest, arg.result, .unused⟩, dest⟩

/-- Code that leaves the values of the nodes on the stack, behind `code`. -/
def lowerAll (offset : Nat) (code : Array Instruction) : List Node → Lowering (Array Instruction)
  | [] => return code
  | node :: nodes => do
    let p ← lower (offset + code.size) .stack node
    lowerAll offset (code ++ p.onStack) nodes

/-- Code that builds a long array in chunks, behind the code of its first `k` elements. -/
def lowerChunks (offset : Nat) (code : Array Instruction) (k : Nat) :
    List Node → Lowering (Array Instruction)
  | [] => return code
  | node :: nodes => do
    let p ← lower (offset + code.size) .stack node
    lowerChunks offset (code ++ p.onStack ++ gather (k + 1) nodes.isEmpty) (k + 1) nodes

/-- The code of a block: all values but the last are dropped. -/
def lowerBlock (offset : Nat) (dest : Operand) (code : Array Instruction) :
    List Node → Lowering Piece
  | [] => return ⟨code, ← constant .nil⟩
  | [last] => do
    let p ← lower (offset + code.size) dest last
    return ⟨code ++ p.code, p.result⟩
  | node :: nodes => do
    let p ← lower (offset + code.size) .stack node
    lowerBlock offset dest (code ++ p.code ++ dropCode p.result) nodes

/-- The code of a branch that may be missing; then its value is nil. -/
def lowerOption (offset : Nat) : Option Node → Lowering Piece
  | none => return ⟨#[], ← constant .nil⟩
  | some node => lower offset .stack node

/-- The code of the argument of a primitive, if it has one. -/
def lowerFirst (offset : Nat) : List Node → Lowering Piece
  | [] => return ⟨#[], .unused⟩
  | node :: _ => lower offset .stack node

/-- The producers of a loop, the first of which is spawned at `offset`, and the offset
behind them; `done` holds earlier ones backwards. -/
def lowerIterators (offset : Nat) (targets : List Operand) (done : List Producer) :
    List Node → Lowering (List Producer × Nat)
  | [] => return (done.reverse, offset)
  | node :: nodes => do
    let p ← lower (offset + 1) .stack node
    let body := (p.code ++ dropCode p.result).push (.bare .endIter)
    let next := offset + 1 + body.size
    let cont ← forward offset next
    lowerIterators (next + 1) targets.tail
      (⟨offset, cont, body, targets.head?.getD .stack⟩ :: done) nodes

end

end YieldMachine
