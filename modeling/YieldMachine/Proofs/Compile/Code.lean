import Mathlib.Data.List.Forall2
import YieldMachine.Program
import YieldMachine.Proofs.Compile.Lowering
import YieldMachine.Proofs.Instruction.Packing

/-!
# The code of a tree

`Code pool dest node code result` says which instructions a node has, and the operand
at which its value can be read behind them: one clause per kind of node, with every
distance given by the lengths of the pieces. It does not mention where the code stands
or how it came about; `pool` is any pool that holds the constants.

    program.Holds base code   the program has these instructions from `base` on
-/

namespace YieldMachine

/-! ## Instructions in a program -/

/-- The instruction at a place, if the word there is one. -/
def Program.instruction? (program : Program) (ip : Nat) : Option Instruction :=
  match program.code[ip]? with
  | none => none
  | some w => (Instruction.decode w).toOption

/-- The program has these instructions from `base` on. -/
def Program.Holds (program : Program) (base : Nat) : List Instruction → Prop
  | [] => True
  | i :: rest => program.instruction? base = some i ∧ program.Holds (base + 1) rest

theorem Program.holds_append {program : Program} {base : Nat} {xs ys : List Instruction} :
    program.Holds base (xs ++ ys) ↔
      program.Holds base xs ∧ program.Holds (base + xs.length) ys := by
  induction xs generalizing base with
  | nil => simp [Program.Holds]
  | cons x xs ih =>
    simp only [List.cons_append, Program.Holds, ih, List.length_cons, and_assoc]
    rw [show base + 1 + xs.length = base + (xs.length + 1) by omega]

/-! ## Operands -/

/-- The operand of a constant. -/
def Pool.Constant (pool : Pool) (o : Operand) (v : Value) : Prop :=
  ∃ i : Nat, o = ⟨.data, i⟩ ∧ pool.constants[i]? = some v

/-- The operand of a variable. -/
def Pool.Variable (pool : Pool) : Ref → Operand → Prop
  | .own slot, o => o = ⟨.frame, slot.toNat⟩
  | .outer slot, o => o = ⟨.closure, slot.toNat⟩
  | .global name, o => ∃ i : Nat, o = ⟨.global, i⟩ ∧ pool.constants[i]? = some (.string name)

/-! ## Pieces -/

/-- Code that makes the value at an operand available at `dest`. -/
def moved (r dest : Operand) : List Instruction :=
  (materialize r dest).toList

/-- Code with its value on the stack. -/
def pushed (code : List Instruction) (r : Operand) : List Instruction :=
  code ++ moved r .stack

/-- Code whose value nobody reads. -/
def dropped (code : List Instruction) (r : Operand) : List Instruction :=
  code ++ (dropCode r).toList

/-- Does code that runs between the reading of a value and its use make a copy necessary? -/
def Node.disturbs (later : List Node) (r : Operand) : Bool :=
  r.isVariable && later.any fun node => !node.isInPlace

/-- Code whose value is read behind the code of `later` nodes. -/
def pinned (later : List Node) (code : List Instruction) (r : Operand) : List Instruction :=
  if Node.disturbs later r then pushed code r else code

/-- Where a value is that is read behind the code of `later` nodes. -/
def pinnedAt (later : List Node) (r : Operand) : Operand :=
  if Node.disturbs later r then .stack else r

/-! ## For loops -/

/-- The producers of a loop: each starts behind its spawn, feeds its variable, and leaves
the loop when it runs dry. `rest` is the distance from behind them to the exit. -/
def spawnAll (rest : Nat) : List (Operand × List Instruction) → List Instruction
  | [] => []
  | (target, iterator) :: more =>
    let tail := spawnAll rest more
    ⟨.spawn, .jump (iterator.length + 1 : Nat),
      .jump (iterator.length + 2 + tail.length + rest : Nat), .unused⟩ ::
    (iterator ++ [.bare .endIter, ⟨.move, target, .stack, .unused⟩] ++ tail)

/-- The next value of every producer, from number `k` on. -/
def resumeAll (k : Nat) : List Operand → List Instruction
  | [] => []
  | target :: more =>
    ⟨.resume, ⟨.immediate, k⟩, .jump (2 * more.length + 2 : Nat), .unused⟩ ::
      ⟨.move, target, .stack, .unused⟩ :: resumeAll (k + 1) more

/-- One pass through a loop behind its producers, up to and with the jump back. -/
def passCode (targets : List Operand) (body : List Instruction) : List Instruction :=
  [.bare .pop] ++ body ++ resumeAll 0 targets ++
    [⟨.jump, .jump (-(body.length + 2 * targets.length + 2 : Nat)), .unused, .unused⟩]

/-- The code of a for loop. -/
def forCode (nil : Operand) (targets : List Operand) (iterators : List (List Instruction))
    (body : List Instruction) : List Instruction :=
  let pass := passCode targets body
  [⟨.move, .stack, nil, .unused⟩, .bare .iterBegin] ++
    spawnAll pass.length (targets.zip iterators) ++ pass ++ [.bare .iterEnd]

/-! ## Loops in a program -/

/-- The parts of the code of a loop stand in a program. A pass through the loop starts at
`top`, behind the producers. -/
structure Program.LoopAt (program : Program) (base top : Nat) (nil : Operand)
    (targets : List Operand) (its : List (List Instruction)) (bc : List Instruction) :
    Prop where
  init : program.instruction? base = some ⟨.move, .stack, nil, .unused⟩
  opens : program.instruction? (base + 1) = some (.bare .iterBegin)
  producers : program.Holds (base + 2)
    (spawnAll (bc.length + 2 * targets.length + 2) (targets.zip its))
  top_eq : top = base + 2 +
    (spawnAll (bc.length + 2 * targets.length + 2) (targets.zip its)).length
  starts : program.instruction? top = some (.bare .pop)
  body : program.Holds (top + 1) bc
  resumes : program.Holds (top + 1 + bc.length) (resumeAll 0 targets)
  back : program.instruction? (top + 1 + bc.length + 2 * targets.length) =
    some ⟨.jump, .jump (-(bc.length + 2 * targets.length + 2 : Nat)), .unused, .unused⟩
  closes : program.instruction? (top + bc.length + 2 * targets.length + 2) =
    some (.bare .iterEnd)

theorem spawnAll_length_eq (rest rest' : Nat) (its : List (Operand × List Instruction)) :
    (spawnAll rest its).length = (spawnAll rest' its).length := by
  induction its with
  | nil => rfl
  | cons it its ih =>
    obtain ⟨target, iterator⟩ := it
    simp only [spawnAll, List.length_cons, List.length_append, ih]

theorem resumeAll_length (k : Nat) (targets : List Operand) :
    (resumeAll k targets).length = 2 * targets.length := by
  induction targets generalizing k with
  | nil => rfl
  | cons target targets ih =>
    simp only [resumeAll, List.length_cons, ih]
    omega

theorem length_passCode (targets : List Operand) (body : List Instruction) :
    (passCode targets body).length = body.length + 2 * targets.length + 2 := by
  simp only [passCode, List.length_append, resumeAll_length, List.length_cons, List.length_nil]
  omega

theorem length_forCode (rest : Nat) (nil : Operand) (targets : List Operand)
    (its : List (List Instruction)) (body : List Instruction) :
    (forCode nil targets its body).length =
      (spawnAll rest (targets.zip its)).length + body.length + 2 * targets.length + 5 := by
  have hspawn := spawnAll_length_eq (passCode targets body).length rest (targets.zip its)
  simp only [forCode, List.length_append, length_passCode, List.length_cons,
    List.length_nil] at hspawn ⊢
  omega

theorem Program.Holds.loop {program : Program} {base : Nat} {nil : Operand}
    {targets : List Operand} {its : List (List Instruction)} {body : List Instruction}
    (h : program.Holds base (forCode nil targets its body)) :
    ∃ top, program.LoopAt base top nil targets its body := by
  obtain ⟨h, hcloses, -⟩ := Program.holds_append.1 h
  obtain ⟨h, hpass⟩ := Program.holds_append.1 h
  obtain ⟨⟨hinit, hopens, -⟩, hproducers⟩ := Program.holds_append.1 h
  rw [length_passCode] at hproducers
  simp only [List.length_append, length_passCode, List.length_cons, List.length_nil,
    ← Nat.add_assoc, Nat.add_zero] at hpass hcloses
  obtain ⟨top, htop⟩ : ∃ top, top = base + 2 +
    (spawnAll (body.length + 2 * targets.length + 2) (targets.zip its)).length := ⟨_, rfl⟩
  rw [← htop] at hpass hcloses
  obtain ⟨hpass, hback, -⟩ := Program.holds_append.1 hpass
  obtain ⟨hpass, hresumes⟩ := Program.holds_append.1 hpass
  obtain ⟨⟨hstarts, -⟩, hbody⟩ := Program.holds_append.1 hpass
  simp only [List.length_append, List.length_cons, List.length_nil, resumeAll_length,
    ← Nat.add_assoc, Nat.add_zero] at hback hresumes hbody
  exact ⟨top, hinit, hopens, hproducers, htop, hstarts, hbody, hresumes, hback, hcloses⟩

/-! ## Nodes -/

/-- The number of slots that a function of so many parameters asks for. -/
def slotCount (params frameSize : UInt64) : UInt64 :=
  if params ≤ frameSize then frameSize else params

mutual

/-- The code of a node and where its value is. -/
def Code (pool : Pool) (dest : Operand) : Node → List Instruction → Operand → Prop
  | .literal value, code, r => code = [] ∧ pool.Constant r value.value
  | .ref target, code, r => code = [] ∧ pool.Variable target r
  | .assign target value, code, r =>
    pool.Variable target r ∧ ∃ vc vr, Code pool r value vc vr ∧ code = vc ++ moved vr r
  | .unary op operand, code, r =>
    r = dest ∧ ∃ vc vr, Code pool .stack operand vc vr ∧
      code = vc ++ [⟨op.opcode, dest, vr, .unused⟩]
  | .binary left op right, code, r =>
    r = dest ∧ ∃ lc lr rc rr, Code pool .stack left lc lr ∧ Code pool .stack right rc rr ∧
      code = pinned [right] lc lr ++ rc ++ [⟨op.opcode, dest, pinnedAt [right] lr, rr⟩]
  | .index target place, code, r =>
    r = dest ∧ ∃ lc lr rc rr, Code pool .stack target lc lr ∧ Code pool .stack place rc rr ∧
      code = pinned [place] lc lr ++ rc ++ [⟨.index, dest, pinnedAt [place] lr, rr⟩]
  | .slice target start stop, code, r =>
    r = .stack ∧ ∃ tc tr ac ar bc br, Code pool .stack target tc tr ∧
      Code pool .stack start ac ar ∧ Code pool .stack stop bc br ∧
      code = pinned [start, stop] tc tr ++ pinned [stop] ac ar ++ bc ++
        [⟨.slice, pinnedAt [start, stop] tr, pinnedAt [stop] ar, br⟩]
  | .len target, code, r =>
    r = dest ∧ ∃ vc vr, Code pool .stack target vc vr ∧ code = vc ++ [⟨.len, dest, vr, .unused⟩]
  | .array elements, code, r =>
    r = dest ∧
      if elements.length ≤ chunkLength then
        ∃ ec, CodeAll pool elements ec ∧
          code = ec ++ [⟨.makeArray, dest, ⟨.immediate, elements.length⟩, .unused⟩]
      else ∃ ec, CodeChunks pool 0 elements ec ∧ code = ec ++ moved .stack dest
  | .block nodes, code, r => CodeBlock pool dest nodes code r
  | .cond condition thenBranch elseBranch, code, r =>
    r = .stack ∧ ∃ cc cr tc tr ec er, Code pool .stack condition cc cr ∧
      Code pool .stack thenBranch tc tr ∧ CodeOption pool elseBranch ec er ∧
      code = cc ++
        [⟨.jumpIfFalse, .jump ((pushed tc tr).length + 1 : Nat), cr, .unused⟩] ++ pushed tc tr ++
        [⟨.jump, .jump (pushed ec er).length, .unused, .unused⟩] ++ pushed ec er
  | .loop condition body, code, r =>
    r = .stack ∧ ∃ nil cc cr bc br, pool.Constant nil .nil ∧ Code pool .stack condition cc cr ∧
      Code pool .stack body bc br ∧
      code = [⟨.move, .stack, nil, .unused⟩] ++ cc ++
        [⟨.jumpIfFalse, .jump ((pushed bc br).length + 2 : Nat), cr, .unused⟩, .bare .pop] ++
        pushed bc br ++
        [⟨.jump, .jump (-(cc.length + (pushed bc br).length + 3 : Nat)), .unused, .unused⟩]
  | .forEach refs iterators body, code, r =>
    r = .stack ∧ ∃ nil targets its bc br, pool.Constant nil .nil ∧
      refs.length = iterators.length ∧ List.Forall₂ pool.Variable refs targets ∧
      CodeIterators pool iterators its ∧ Code pool .stack body bc br ∧
      code = forCode nil targets its (pushed bc br)
  | .yield value, code, r =>
    pool.Constant r .nil ∧ ∃ vc vr, Code pool .stack value vc vr ∧
      code = vc ++ [⟨.yield, .unused, vr, .unused⟩]
  | .function params frameSize body, code, r =>
    r = .stack ∧ ∃ bc br, Code pool .stack body bc br ∧
      code = [⟨.jump, .jump (bc.length + 1 : Nat), .unused, .unused⟩] ++ bc ++
        [⟨.ret, .unused, br, .unused⟩,
          ⟨.makeFunction, ⟨.immediate, -(bc.length + 2 : Nat)⟩,
            ⟨.immediate, params.toInt64.toInt⟩,
            ⟨.immediate, (slotCount params frameSize).toInt64.toInt⟩⟩]
  | .call callee args, code, r =>
    r = .stack ∧ ∃ ac fc fr, CodeAll pool args ac ∧ Code pool .stack callee fc fr ∧
      code = ac ++ fc ++ [⟨.call, ⟨.immediate, args.length⟩, fr, .unused⟩]
  | .ret value, code, r =>
    pool.Constant r .nil ∧ ∃ vc vr, Code pool .stack value vc vr ∧
      code = vc ++ [⟨.ret, .unused, vr, .unused⟩]
  | .primitive op args, code, r =>
    args.length = op.arity ∧ ∃ vc vr, CodeFirst pool args vc vr ∧
      if op = .exit then
        pool.Constant r .nil ∧ code = vc ++ [⟨.exit, .unused, vr, .unused⟩]
      else r = dest ∧ code = vc ++ [⟨op.opcode, dest, vr, .unused⟩]

/-- The code of nodes whose values all go onto the stack. -/
def CodeAll (pool : Pool) : List Node → List Instruction → Prop
  | [], code => code = []
  | node :: nodes, code =>
    ∃ vc vr rest, Code pool .stack node vc vr ∧ CodeAll pool nodes rest ∧
      code = pushed vc vr ++ rest

/-- The code of the elements of a long array behind the first `k` of them. -/
def CodeChunks (pool : Pool) (k : Nat) : List Node → List Instruction → Prop
  | [], code => code = []
  | node :: nodes, code =>
    ∃ vc vr rest, Code pool .stack node vc vr ∧ CodeChunks pool (k + 1) nodes rest ∧
      code = pushed vc vr ++ (gather (k + 1) nodes.isEmpty).toList ++ rest

/-- The code of a block: all values but the last are dropped. -/
def CodeBlock (pool : Pool) (dest : Operand) : List Node → List Instruction → Operand → Prop
  | [], code, r => code = [] ∧ pool.Constant r .nil
  | [last], code, r => Code pool dest last code r
  | node :: nodes, code, r =>
    ∃ vc vr rest, Code pool .stack node vc vr ∧ CodeBlock pool dest nodes rest r ∧
      code = dropped vc vr ++ rest

/-- The code of a branch that may be missing. -/
def CodeOption (pool : Pool) : Option Node → List Instruction → Operand → Prop
  | none, code, r => code = [] ∧ pool.Constant r .nil
  | some node, code, r => Code pool .stack node code r

/-- The code of the argument of a primitive, if it has one. -/
def CodeFirst (pool : Pool) : List Node → List Instruction → Operand → Prop
  | [], code, r => code = [] ∧ r = .unused
  | node :: _, code, r => Code pool .stack node code r

/-- The code of iterators, one piece for each; their own values are dropped. -/
def CodeIterators (pool : Pool) : List Node → List (List Instruction) → Prop
  | [], its => its = []
  | node :: nodes, its =>
    ∃ vc vr rest, Code pool .stack node vc vr ∧ CodeIterators pool nodes rest ∧
      its = dropped vc vr :: rest

end

end YieldMachine
