import YieldMachine.Compile.Segments

/-!
# Emission

Compiling goes through a tree once and emits the code of each node behind what is there.
`emitNode dest node` gives the operand at which the value of the node can be read. Literals
and variables have no code: they are read in place. A node that computes something delivers its
value into `dest` where it can, else onto the stack. Values go onto the stack from left to
right, and a call's arguments before its callee.

A for loop runs each of its iterators as a producer:

            move stack <- nil
            iterbegin
            spawn cont_i, exit        for each iterator i
            <iterator_i>
            enditer
    cont_i: move ref_i <- stack
    top:    pop
            <body> -> stack
            resume i, exit            for each iterator i
            move ref_i <- stack
            jmp top
    exit:   iterend
-/

namespace YieldMachine

open Emitting Lowering

/-! ## Assembly -/

/-- The longest array that one instruction builds. -/
def chunkLength : Nat := 32767

/-- Behind the `k`-th element of an array that is built in chunks: behind a full chunk, and
behind the last element, gather the chunk, and join it to those before it. -/
def Emitting.gather (k : Nat) (isLast : Bool) : Emitting Unit := do
  if k % chunkLength = 0 ∨ isLast then
    let count := if k % chunkLength = 0 then chunkLength else k % chunkLength
    let count ← number count .arrayLength
    let _ ← emit ⟨.makeArray, .stack, count, .unused⟩
    if chunkLength < k then
      let _ ← emit ⟨.add, .stack, .stack, .stack⟩

/-- Take the next value of each producer from the `i`-th on, and give the offsets of the
instructions that leave the loop when there is none. -/
def Emitting.resume (i : Nat) : List Operand → Emitting (List Nat)
  | [] => return []
  | target :: targets => do
    let slot ← number i .producerSlot
    let exit ← emit ⟨.resume, slot, .unused, .unused⟩
    let _ ← emit ⟨.move, target, .stack, .unused⟩
    let exits ← Emitting.resume (i + 1) targets
    return exit :: exits

/-! ## Nodes -/

mutual

/-- Emit the code of a node. -/
def emitNode (dest : Operand) : Node → Emitting Operand
  | .literal value => constant value.value
  | .ref target => variableOperand target
  | .assign target value => do
    let home ← variableOperand target
    let v ← emitNode home value
    materialize v home
  | .unary op operand => do
    let v ← emitNode .stack operand
    let _ ← emit ⟨op.opcode, dest, v, .unused⟩
    return dest
  | .binary left op right => do
    let l ← emitNode .stack left
    let l ← pin l [right]
    let r ← emitNode .stack right
    let _ ← emit ⟨op.opcode, dest, l, r⟩
    return dest
  | .index target place => do
    let t ← emitNode .stack target
    let t ← pin t [place]
    let i ← emitNode .stack place
    let _ ← emit ⟨.index, dest, t, i⟩
    return dest
  | .slice target start stop => do
    let t ← emitNode .stack target
    let t ← pin t [start, stop]
    let i ← emitNode .stack start
    let i ← pin i [stop]
    let j ← emitNode .stack stop
    let _ ← emit ⟨.slice, t, i, j⟩
    return .stack
  | .len target => do
    let t ← emitNode .stack target
    let _ ← emit ⟨.len, dest, t, .unused⟩
    return dest
  | .array elements => do
    if elements.length ≤ chunkLength then
      emitAll elements
      let count ← number elements.length .arrayLength
      let _ ← emit ⟨.makeArray, dest, count, .unused⟩
      return dest
    else
      emitChunks 0 elements
      materialize .stack dest
  | .block nodes => emitBlock dest nodes
  | .cond condition thenBranch elseBranch => do
    let c ← emitNode .stack condition
    let skipThen ← emit ⟨.jumpIfFalse, .unused, c, .unused⟩
    let t ← emitNode .stack thenBranch
    let _ ← materialize t .stack
    let skipElse ← emit (.bare .jump)
    patchJump skipThen .a
    let e ← emitOption elseBranch
    let _ ← materialize e .stack
    patchJump skipElse .a
    return .stack
  | .loop condition body => do
    let nil ← constant .nil
    let _ ← materialize nil .stack
    let top ← here
    let c ← emitNode .stack condition
    let exit ← emit ⟨.jumpIfFalse, .unused, c, .unused⟩
    let _ ← emit (.bare .pop)
    let b ← emitNode .stack body
    let _ ← materialize b .stack
    jumpBack top
    patchJump exit .a
    return .stack
  | .forEach refs iterators body => do
    if refs.length ≠ iterators.length then
      throw (.forArity refs.length iterators.length)
    let targets ← (refs.mapM variableOperand : Lowering (List Operand))
    let nil ← constant .nil
    let _ ← materialize nil .stack
    let _ ← emit (.bare .iterBegin)
    let spawnExits ← emitIterators targets iterators
    let top ← here
    let _ ← emit (.bare .pop)
    let b ← emitNode .stack body
    let _ ← materialize b .stack
    let resumeExits ← Emitting.resume 0 targets
    jumpBack top
    (spawnExits ++ resumeExits).forM (patchJump · .b)
    let _ ← emit (.bare .iterEnd)
    return .stack
  | .yield value => do
    let v ← emitNode .stack value
    let _ ← emit ⟨.yield, .unused, v, .unused⟩
    constant .nil
  | .function params frameSize body => do
    let skip ← emit (.bare .jump)
    let start ← here
    let b ← emitNode .stack body
    let _ ← emit ⟨.ret, .unused, b, .unused⟩
    patchJump skip .a
    let made ← here
    let entry ← number (distance made start) .functionEntry
    let paramCount ← number params.toInt64.toInt .parameterCount
    let slots := if params ≤ frameSize then frameSize else params
    let size ← number slots.toInt64.toInt .frameSize
    let _ ← emit ⟨.makeFunction, entry, paramCount, size⟩
    return .stack
  | .call callee args => do
    emitAll args
    let f ← emitNode .stack callee
    let count ← number args.length .argumentCount
    let _ ← emit ⟨.call, count, f, .unused⟩
    return .stack
  | .ret value => do
    let v ← emitNode .stack value
    let _ ← emit ⟨.ret, .unused, v, .unused⟩
    constant .nil
  | .primitive op args => do
    if args.length ≠ op.arity then
      throw (.primitiveArity op args.length)
    let arg ← emitFirst args
    if op = .exit then
      let _ ← emit ⟨.exit, .unused, arg, .unused⟩
      constant .nil
    else
      let _ ← emit ⟨op.opcode, dest, arg, .unused⟩
      return dest

/-- Emit code that leaves the values of the nodes on the stack. -/
def emitAll : List Node → Emitting Unit
  | [] => return ()
  | node :: nodes => do
    let v ← emitNode .stack node
    let _ ← materialize v .stack
    emitAll nodes

/-- Emit code that builds a long array in chunks, behind that of its first `k` elements. -/
def emitChunks (k : Nat) : List Node → Emitting Unit
  | [] => return ()
  | node :: nodes => do
    let v ← emitNode .stack node
    let _ ← materialize v .stack
    Emitting.gather (k + 1) nodes.isEmpty
    emitChunks (k + 1) nodes

/-- Emit the code of a block: all values but the last are dropped. -/
def emitBlock (dest : Operand) : List Node → Emitting Operand
  | [] => constant .nil
  | [last] => emitNode dest last
  | node :: nodes => do
    let v ← emitNode .stack node
    drop v
    emitBlock dest nodes

/-- Emit the code of a branch that may be missing; then its value is nil. -/
def emitOption : Option Node → Emitting Operand
  | none => constant .nil
  | some node => emitNode .stack node

/-- Emit the code of the argument of a primitive, if it has one. -/
def emitFirst : List Node → Emitting Operand
  | [] => return .unused
  | node :: _ => emitNode .stack node

/-- Emit the producers of a loop, each for the variable it feeds, and give the offsets of the
instructions that leave the loop when one of them has no value. -/
def emitIterators : List Operand → List Node → Emitting (List Nat)
  | target :: targets, node :: nodes => do
    let spawn ← emit (.bare .spawn)
    let v ← emitNode .stack node
    drop v
    let _ ← emit (.bare .endIter)
    patchJump spawn .a
    let _ ← emit ⟨.move, target, .stack, .unused⟩
    let exits ← emitIterators targets nodes
    return spawn :: exits
  | _, _ => return []

end

/-- Emit the code of a statement. Running from its entry to the end of the words leaves its
value on the stack. -/
def emitStatement (node : Node) : Emitting Nat := do
  let entry ← here
  let v ← emitNode .stack node
  let _ ← materialize v .stack
  return entry

end YieldMachine
