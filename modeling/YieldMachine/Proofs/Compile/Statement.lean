import YieldMachine.Proofs.Compile.Emitted

/-!
# Compiled statements

A statement that compiles stands behind everything compiled before, which stays as it
was: `Program.Gained` gives its code, `Program.Within` what is kept.
-/

namespace YieldMachine

/-! ## Programs that grow -/

/-- Every instruction and every constant of `p` is in `q`, at the same place. -/
structure Program.Within (p q : Program) : Prop where
  code : ∀ (ip : Nat) (w : Word), p.code[ip]? = some w → q.code[ip]? = some w
  pool : p.pool.Within q.pool

theorem Program.Within.refl (p : Program) : p.Within p :=
  ⟨fun _ _ h => h, Pool.Within.refl _⟩

theorem Program.Within.trans {p q r : Program} (hpq : p.Within q) (hqr : q.Within r) :
    p.Within r :=
  ⟨fun ip w h => hqr.code ip w (hpq.code ip w h), hpq.pool.trans hqr.pool⟩

theorem Program.Within.size_le {p q : Program} (h : p.Within q) : p.code.size ≤ q.code.size := by
  rcases Nat.eq_zero_or_pos p.code.size with hz | hz
  · omega
  · have hlast : p.code[p.code.size - 1]? = some (p.code[p.code.size - 1]) :=
      Array.getElem?_eq_getElem (by omega)
    have hq := h.code _ _ hlast
    obtain ⟨hlt, -⟩ := Array.getElem?_eq_some_iff.1 hq
    omega

theorem Program.Within.instruction? {p q : Program} (h : p.Within q) {ip : Nat} {i : Instruction}
    (hi : p.instruction? ip = some i) : q.instruction? ip = some i := by
  unfold Program.instruction? at hi ⊢
  cases hw : p.code[ip]? with
  | none => rw [hw] at hi; cases hi
  | some w =>
    rw [hw] at hi
    rw [h.code ip w hw]
    exact hi

theorem Program.instruction?_lt {p : Program} {ip : Nat} {i : Instruction}
    (h : p.instruction? ip = some i) : ip < p.code.size := by
  unfold Program.instruction? at h
  rcases Nat.lt_or_ge ip p.code.size with hlt | hge
  · exact hlt
  · rw [Array.getElem?_eq_none hge] at h
    cases h

theorem Program.Holds.within {p q : Program} (h : p.Within q) {base : Nat}
    {code : List Instruction} (hc : p.Holds base code) : q.Holds base code := by
  induction code generalizing base with
  | nil => exact trivial
  | cons i code ih => exact ⟨h.instruction? hc.1, ih hc.2⟩

/-! ## Statements -/

theorem Program.toList_append (code : Array Word) (instructions : Array Instruction) :
    (Program.append code instructions).toList =
      code.toList ++ instructions.toList.map Instruction.encode := by
  rw [Program.append, Array.toList_append, Array.toList_map]

theorem Program.holds_of_encoded {program : Program} :
    ∀ (code : List Instruction) {base : Nat}, AllFit code →
      (∀ k : Nat, k < code.length →
        program.code[base + k]? = (code.map Instruction.encode)[k]?) →
      program.Holds base code := by
  intro code
  induction code with
  | nil => intro base _ _; exact trivial
  | cons i code ih =>
    intro base hf hc
    rw [allFit_cons] at hf
    refine ⟨?_, ih hf.2 fun k hk => ?_⟩
    · have h0 := hc 0 (by simp)
      simp only [Nat.add_zero, List.map_cons, List.getElem?_cons_zero] at h0
      simp only [Program.instruction?, h0, Instruction.decode_encode hf.1]
      rfl
    · have hk' := hc (k + 1) (by simpa using hk)
      rw [show base + 1 + k = base + (k + 1) by omega, hk']
      rfl

/-- What a program has after a statement was compiled onto its end. -/
structure Program.Gained (p q : Program) (node : Node) (code : List Instruction) (r : Operand) :
    Prop where
  within : p.Within q
  lowered : Code q.pool .stack node code r
  holds : q.Holds p.code.size (pushed code r)
  size : q.code.size = p.code.size + (pushed code r).length

theorem Program.compile_ok {program : Program} {journal journal' : Journal} {node : Node}
    {entry : Nat} {program' : Program}
    (h : program.compile journal node = ⟨.ok entry, program', journal'⟩) :
    entry = program.code.size ∧ ∃ code r, program.Gained program' node code r := by
  obtain ⟨words, pool⟩ := program
  rw [Program.compile_eq] at h
  split at h
  · next piece pool' journal₁ hl =>
    cases h
    obtain ⟨hw, hf, hr, hc⟩ := lower_lowered node rfl hl
    have happ := Program.toList_append words piece.onStack
    rw [piece.toList_onStack] at happ
    refine ⟨rfl, piece.code.toList, piece.result, ⟨?_, hw⟩, hc pool' (Pool.Within.refl _), ?_, ?_⟩
    · intro ip w hip
      rw [← Array.getElem?_toList] at hip ⊢
      rw [happ, List.getElem?_append_left (List.getElem?_eq_some_iff.1 hip).1]
      exact hip
    · apply Program.holds_of_encoded _ (allFit_pushed hf hr)
      intro k hk
      rw [← Array.getElem?_toList]
      dsimp only
      rw [happ, List.getElem?_append_right (by simp)]
      simp
    · have hlen := congrArg List.length happ
      simp only [Array.length_toList, List.length_append, List.length_map] at hlen
      exact hlen
  · cases h

end YieldMachine
