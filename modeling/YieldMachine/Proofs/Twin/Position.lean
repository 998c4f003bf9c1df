import YieldMachine.Proofs.Twin.Pools

/-!
# Code that does not know its place

A statement is compiled onto the end of two programs that have nothing in common but their
pool. Offsets enter its code only as distances between places of the statement itself, and
these distances are also what the checks on the width of an address look at. So both
programs receive the same words, or refuse the statement with the same error.

    compile_position   the words appended, the error and the pool do not depend on the place
-/

namespace YieldMachine

open Lowering

/-! ## The coupling -/

/-- Adding a constant and addressing it does not depend on the journal. -/
theorem Lowering.pairs_addressed (v : Value) (address : Nat → Except CompileError Operand)
    {b b' : Workbench} (hb : b'.pool = b.pool) :
    Lowering.Pairs (fun s => s.second = s.first) (fun _ => False) (fun _ o o' => o' = o)
      (do let i ← Lowering.add v; check (address i))
      (do let i ← Lowering.add v; check (address i)) b b' := by
  obtain ⟨hgrows, -⟩ := b.pool.add_spec v
  unfold Lowering.Pairs
  simp only [Bind.bind, EStateM.bind, Lowering.add_run, hb]
  cases address (b.pool.add v).1 with
  | ok o =>
    refine ⟨o, ⟨(b.pool.add v).2, b.journal⟩, rfl, rfl, ?_, rfl⟩
    constructor
    · exact hgrows
    · rw [Pools.of, hb]
      exact hgrows
  | error e => exact .inr ⟨⟨(b.pool.add v).2, b.journal⟩, rfl, rfl⟩

/-- Both lowerings start from the same pool. -/
def Coupling.onePool : Coupling where
  Good s := s.second = s.first
  Gone _ := False
  Same _ o o' := o' = o
  grow _ h := h
  mode h := by rw [h]
  plain _ := rfl
  eq_iff h h' := by rw [h, h']
  constant _ hb := pairs_addressed _ _ hb
  global hb := pairs_addressed _ _ hb

namespace Coupling

variable {s : Pools}

theorem Instr.eq {i i' : Instruction} (h : Coupling.onePool.Instr s i i') : i' = i := by
  obtain ⟨hopcode, ha, hb, hc, -⟩ := h
  obtain ⟨opcode, a, b, c⟩ := i
  obtain ⟨opcode', a', b', c'⟩ := i'
  cases hopcode
  cases ha
  cases hb
  cases hc
  rfl

theorem Code.eq {code code' : Array Instruction} (h : Coupling.onePool.Code s code code') :
    code' = code := by
  apply Array.ext'
  refine (List.forall₂_eq_eq_eq ▸ h.imp ?_ : code.toList = code'.toList).symm
  intro i i' hi
  exact hi.eq.symm

end Coupling

/-! ## Statements -/

namespace Program

/-- What a statement compiles to does not depend on where it will stand. -/
theorem compile_position (code code' : Array Word) (pool : Pool) (journal journal' : Journal)
    (node : Node) :
    ∃ pool' : Pool,
      (∃ e : CompileError,
        ((compile ⟨code, pool⟩ journal node).entry = .error e ∧
          (compile ⟨code, pool⟩ journal node).program = ⟨code, pool'⟩) ∧
        (compile ⟨code', pool⟩ journal' node).entry = .error e ∧
          (compile ⟨code', pool⟩ journal' node).program = ⟨code', pool'⟩) ∨
      ∃ words : Array Word,
        ((compile ⟨code, pool⟩ journal node).entry = .ok code.size ∧
          (compile ⟨code, pool⟩ journal node).program = ⟨code ++ words, pool'⟩) ∧
        (compile ⟨code', pool⟩ journal' node).entry = .ok code'.size ∧
          (compile ⟨code', pool⟩ journal' node).program = ⟨code' ++ words, pool'⟩ := by
  have hpair : Coupling.onePool.Pairs Coupling.onePool.Piece (lower code.size .stack node)
      (lower code'.size .stack node) ⟨pool, journal⟩ ⟨pool, journal'⟩ :=
    lower_pairs node rfl rfl
  unfold Coupling.Pairs Lowering.Pairs at hpair
  rw [compile_eq, compile_eq]
  cases hl' : lower code'.size .stack node ⟨pool, journal'⟩ with
  | error e b' =>
    rw [hl'] at hpair
    obtain hgone | ⟨b, hl, hpools⟩ := hpair
    · exact hgone.elim
    · have hpools : b'.pool = b.pool := hpools
      rw [hl]
      refine ⟨b.pool, .inl ⟨e, ⟨rfl, rfl⟩, rfl, ?_⟩⟩
      rw [← hpools]
  | ok piece' b' =>
    rw [hl'] at hpair
    obtain ⟨piece, b, hl, hpools, -, hpiece⟩ := hpair
    have hpools : b'.pool = b.pool := hpools
    have hcode := hpiece.onStack.eq
    rw [hl]
    refine ⟨b.pool, .inr ⟨piece.onStack.map Instruction.encode, ⟨rfl, rfl⟩, rfl, ?_⟩⟩
    rw [← hpools, ← hcode]
    rfl

end Program

end YieldMachine
