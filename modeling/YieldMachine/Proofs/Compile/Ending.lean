import YieldMachine.Proofs.Compile.Code

/-!
# How compiled code ends

A yield leaves nothing on the stack, so the value of a node is never one that its last
instruction yielded: code with its value on the stack does not end in a yield.

    Code.settled   code that leaves its value on the stack does not end in a yield
-/

namespace YieldMachine

/-- A piece has a last instruction, and that is no yield. -/
def Settled (code : List Instruction) : Prop :=
  ∃ i, code.getLast? = some i ∧ i.opcode ≠ .yield

section

variable {pool : Pool} {xs ys : List Instruction} {i : Instruction} {r : Operand}

theorem Settled.append (h : Settled ys) : Settled (xs ++ ys) := by
  obtain ⟨i, hi, hop⟩ := h
  exact ⟨i, by rw [List.getLast?_append, hi, Option.some_or], hop⟩

theorem Settled.concat (h : i.opcode ≠ .yield) : Settled (xs ++ [i]) :=
  ⟨i, List.getLast?_concat, h⟩

theorem Settled.moved {o : Operand} (h : o = r → Settled xs) : Settled (xs ++ moved o r) := by
  unfold YieldMachine.moved materialize
  split
  · next ho =>
    rw [List.append_nil]
    exact h ho
  · exact Settled.concat (by simp)

theorem Settled.pushed (h : r.isStack → Settled xs) : Settled (pushed xs r) :=
  Settled.moved fun hr => h (by rw [hr]; rfl)

theorem Settled.gather (k : Nat) : Settled (gather k true).toList := by
  unfold YieldMachine.gather
  dsimp only
  rw [if_pos (.inr rfl)]
  split
  · exact ⟨_, rfl, by simp⟩
  · exact ⟨_, rfl, by simp⟩

theorem Pool.Constant.isStack {v : Value} (h : pool.Constant r v) : r.isStack = false := by
  obtain ⟨k, rfl, -⟩ := h
  rfl

theorem Pool.Variable.isStack {ref : Ref} (h : pool.Variable ref r) : r.isStack = false := by
  cases ref with
  | own | outer =>
    rw [show r = _ from h]
    rfl
  | global =>
    obtain ⟨k, rfl, -⟩ := h
    rfl

theorem Primitive.opcode_ne_yield (op : Primitive) : op.opcode ≠ .yield := by
  cases op <;> simp [Primitive.opcode]

end

mutual

/-- Code that leaves its value on the stack does not end in a yield. -/
theorem Code.settled (node : Node) {pool : Pool} {dest r : Operand} {code : List Instruction}
    (h : Code pool dest node code r) (hr : r.isStack) : Settled code := by
  cases node with
  | literal value =>
    rw [Code] at h
    rw [h.2.isStack] at hr
    cases hr
  | ref target =>
    rw [Code] at h
    rw [h.2.isStack] at hr
    cases hr
  | assign target value =>
    rw [Code] at h
    rw [h.1.isStack] at hr
    cases hr
  | unary op operand =>
    rw [Code] at h
    obtain ⟨-, vc, vr, -, rfl⟩ := h
    exact Settled.concat (by cases op <;> simp [UnaryOp.opcode])
  | binary left op right =>
    rw [Code] at h
    obtain ⟨-, lc, lr, rc, rr, -, -, rfl⟩ := h
    exact Settled.concat (by cases op <;> simp [BinaryOp.opcode])
  | index target place =>
    rw [Code] at h
    obtain ⟨-, lc, lr, rc, rr, -, -, rfl⟩ := h
    exact Settled.concat (by simp)
  | slice target start stop =>
    rw [Code] at h
    obtain ⟨-, tc, tr, ac, ar, bc, br, -, -, -, rfl⟩ := h
    exact Settled.concat (by simp)
  | len target =>
    rw [Code] at h
    obtain ⟨-, vc, vr, -, rfl⟩ := h
    exact Settled.concat (by simp)
  | array elements =>
    rw [Code] at h
    obtain ⟨rfl, h⟩ := h
    split at h
    · obtain ⟨ec, -, rfl⟩ := h
      exact Settled.concat (by simp)
    · next hlen =>
      obtain ⟨ec, hec, rfl⟩ := h
      have hne : elements ≠ [] := by
        rintro rfl
        exact hlen (Nat.zero_le _)
      exact Settled.moved fun _ => CodeChunks.settled elements hne hec
  | block nodes =>
    rw [Code] at h
    exact CodeBlock.settled nodes h hr
  | cond condition thenBranch elseBranch =>
    rw [Code] at h
    obtain ⟨-, cc, cr, tc, tr, ec, er, -, -, he, rfl⟩ := h
    exact (Settled.pushed (CodeOption.settled elseBranch he)).append
  | loop condition body =>
    rw [Code] at h
    obtain ⟨-, nil, cc, cr, bc, br, -, -, -, rfl⟩ := h
    exact Settled.concat (by simp)
  | forEach refs iterators body =>
    rw [Code] at h
    obtain ⟨-, nil, targets, its, bc, br, -, -, -, -, -, rfl⟩ := h
    exact Settled.concat (by simp [Instruction.bare])
  | yield value =>
    rw [Code] at h
    rw [h.1.isStack] at hr
    cases hr
  | function params frameSize body =>
    rw [Code] at h
    obtain ⟨-, bc, br, -, rfl⟩ := h
    exact Settled.append ⟨_, rfl, by simp⟩
  | call callee args =>
    rw [Code] at h
    obtain ⟨-, ac, fc, fr, -, -, rfl⟩ := h
    exact Settled.concat (by simp)
  | ret value =>
    rw [Code] at h
    rw [h.1.isStack] at hr
    cases hr
  | primitive op args =>
    rw [Code] at h
    obtain ⟨-, vc, vr, -, h⟩ := h
    split at h
    · rw [h.1.isStack] at hr
      cases hr
    · obtain ⟨-, rfl⟩ := h
      exact Settled.concat op.opcode_ne_yield

theorem CodeChunks.settled (nodes : List Node) {pool : Pool} {k : Nat} {code : List Instruction}
    (hne : nodes ≠ []) (h : CodeChunks pool k nodes code) : Settled code := by
  match nodes with
  | [] => exact absurd rfl hne
  | [node] =>
    rw [CodeChunks] at h
    obtain ⟨vc, vr, rest, -, hrest, rfl⟩ := h
    rw [CodeChunks] at hrest
    rw [hrest, List.append_nil]
    exact (Settled.gather _).append
  | node :: next :: nodes =>
    rw [CodeChunks] at h
    obtain ⟨vc, vr, rest, -, hrest, rfl⟩ := h
    exact (CodeChunks.settled (next :: nodes) (by simp) hrest).append

theorem CodeBlock.settled (nodes : List Node) {pool : Pool} {dest r : Operand}
    {code : List Instruction} (h : CodeBlock pool dest nodes code r) (hr : r.isStack) :
    Settled code := by
  match nodes with
  | [] =>
    rw [CodeBlock] at h
    rw [h.2.isStack] at hr
    cases hr
  | [last] =>
    rw [CodeBlock] at h
    exact Code.settled last h hr
  | node :: next :: nodes =>
    rw [CodeBlock] at h
    · obtain ⟨vc, vr, rest, -, hrest, rfl⟩ := h
      exact (CodeBlock.settled (next :: nodes) hrest hr).append
    · intro h
      cases h

theorem CodeOption.settled (node : Option Node) {pool : Pool} {r : Operand}
    {code : List Instruction} (h : CodeOption pool node code r) (hr : r.isStack) :
    Settled code := by
  cases node with
  | none =>
    rw [CodeOption] at h
    rw [h.2.isStack] at hr
    cases hr
  | some node =>
    rw [CodeOption] at h
    exact Code.settled node h hr

end

end YieldMachine
