import YieldMachine.Proofs.Compile.Parts
import YieldMachine.Proofs.Compile.Sharing
import YieldMachine.Proofs.Compile.Statement

/-!
# Lowering only adds constants

Whether or not a node compiles, the constants that were there before keep their
numbers, so a program loses nothing by a statement that does not compile.

    compile_appends   words and constants are added behind those there were, or no words at all
-/

namespace YieldMachine

namespace Lowering

/-! ## What happens to a pool -/

/-- Whatever becomes of it, the pool that it leaves goes with the pool it found. -/
def Leaves {α : Type} (R : Pool → Pool → Prop) (x : Lowering α) : Prop :=
  ∀ b, match x b with
    | .ok _ b' => R b.pool b'.pool
    | .error _ b' => R b.pool b'.pool

section

variable {α β : Type} {R : Pool → Pool → Prop}

theorem leaves_pure (hrefl : ∀ p, R p p) (a : α) : Leaves R (pure a) :=
  fun b => hrefl b.pool

theorem leaves_throw (hrefl : ∀ p, R p p) (e : CompileError) : Leaves R (throw e : Lowering α) :=
  fun b => hrefl b.pool

theorem Leaves.bind (htrans : ∀ p q r, R p q → R q r → R p r) {x : Lowering α}
    {f : α → Lowering β} (hx : Leaves R x) (hf : ∀ a, Leaves R (f a)) : Leaves R (x >>= f) := by
  intro b
  have hx := hx b
  show match EStateM.bind x f b with
    | .ok _ b' => R b.pool b'.pool
    | .error _ b' => R b.pool b'.pool
  unfold EStateM.bind
  cases hxb : x b with
  | error e b₁ =>
    rw [hxb] at hx
    exact hx
  | ok a b₁ =>
    rw [hxb] at hx
    have hf := hf a b₁
    dsimp only at hx hf ⊢
    cases hfb : f a b₁ with
    | ok _ b₂ =>
      rw [hfb] at hf
      exact htrans _ _ _ hx hf
    | error _ b₂ =>
      rw [hfb] at hf
      exact htrans _ _ _ hx hf

/-- Only an added constant changes a pool. -/
theorem leaves_closed (hrefl : ∀ p, R p p) (htrans : ∀ p q r, R p q → R q r → R p r)
    (hadd : ∀ (p : Pool) (v : Value), v.key?.isSome → R p (p.add v).2) :
    Closed fun _ x => Leaves R x := by
  constructor
  case pure => exact leaves_pure hrefl
  case bind => exact Leaves.bind htrans
  case add => exact fun v hv b => hadd b.pool v hv
  case checked =>
    intro mode address field
    unfold Operand.checked
    split
    · exact leaves_pure hrefl _
    · exact leaves_throw hrefl _
  case forward =>
    intro source target b
    unfold forward
    split
    · next h =>
      split at h
      · cases h
        exact hrefl _
      · cases h
    · next h =>
      split at h
      · cases h
      · cases h
        exact hrefl _

end

/-! ## Growing workbenches -/

/-- Whatever becomes of it, the constants of the workbench stay. -/
def Grows {α : Type} (x : Lowering α) : Prop :=
  ∀ b, match x b with
    | .ok _ b' => b.pool.Within b'.pool
    | .error _ b' => b.pool.Within b'.pool

theorem grows_throw {α : Type} (e : CompileError) : Grows (throw e : Lowering α) :=
  fun _ => Pool.Within.refl _

theorem grows_closed : Closed fun _ x => Grows x :=
  leaves_closed Pool.Within.refl (fun _ _ _ => Pool.Within.trans) fun p v _ => (p.add_spec v).1

end Lowering

theorem lower_grows (node : Node) (offset : Nat) (dest : Operand) :
    Lowering.Grows (lower offset dest node) :=
  lower_closed Lowering.grows_closed node (fun _ _ e _ => Lowering.grows_throw e) offset dest

/-! ## Statements -/

/-- A statement that does not compile takes nothing away. -/
theorem Program.compile_error {program program' : Program} {journal journal' : Journal}
    {node : Node} {e : CompileError}
    (h : program.compile journal node = ⟨.error e, program', journal'⟩) :
    program.Within program' := by
  obtain ⟨words, pool⟩ := program
  have hgrows := lower_grows node words.size .stack ⟨pool, journal⟩
  rw [Program.compile_eq] at h
  split at h
  · cases h
  · next e' pool' journal₁ hl =>
    cases h
    rw [hl] at hgrows
    exact ⟨fun _ _ h => h, hgrows⟩

/-- A statement that does not compile leaves no word. -/
theorem Program.compile_error_code {program program' : Program} {journal journal' : Journal}
    {node : Node} {e : CompileError}
    (h : program.compile journal node = ⟨.error e, program', journal'⟩) :
    program'.code = program.code := by
  obtain ⟨words, pool⟩ := program
  rw [Program.compile_eq] at h
  split at h
  · cases h
  · cases h
    rfl

/-- A statement that compiles is packed behind the words there were. -/
theorem Program.compile_ok_code {program program' : Program} {journal journal' : Journal}
    {node : Node} {entry : Nat}
    (h : program.compile journal node = ⟨.ok entry, program', journal'⟩) :
    ∃ code, AllFit code ∧
      program'.code.toList = program.code.toList ++ code.map Instruction.encode := by
  obtain ⟨words, pool⟩ := program
  rw [Program.compile_eq] at h
  split at h
  · next piece pool' journal₁ hl =>
    cases h
    obtain ⟨-, hf, hr, -⟩ := lower_lowered node rfl hl
    refine ⟨piece.onStack.toList, ?_, Program.toList_append _ _⟩
    rw [piece.toList_onStack]
    exact allFit_pushed hf hr
  · cases h

/-- Compiling a statement packs its code behind the words there were, and these stay as they
were, whatever jumps are filled in meanwhile. When it fails, at any depth, all that was emitted
is taken back, and the words are those there were. Either way the constants there were keep
their places, and a shared one is found again under its number. -/
theorem Program.compile_appends (program : Program) (journal : Journal) (node : Node) :
    (∀ entry, (program.compile journal node).entry = .ok entry → entry = program.code.size ∧
      ∃ code, AllFit code ∧ (program.compile journal node).program.code.toList =
        program.code.toList ++ code.map Instruction.encode) ∧
    (∀ e, (program.compile journal node).entry = .error e →
      (program.compile journal node).program.code = program.code) ∧
    program.pool.constants.toList <+:
      (program.compile journal node).program.pool.constants.toList ∧
    ∀ (v : Value) (i : Nat), v.key?.isSome → program.pool.get? i = some v →
      (program.compile journal node).program.pool.add v =
        (i, (program.compile journal node).program.pool) := by
  rcases hmade : program.compile journal node with ⟨entry, program', journal'⟩
  have hpool : program.pool.Within program'.pool := by
    cases entry with
    | ok entry =>
      obtain ⟨-, code, r, hgained⟩ := Program.compile_ok hmade
      exact hgained.within.pool
    | error e => exact (Program.compile_error hmade).pool
  refine ⟨?_, ?_, hpool.isPrefix, fun v i hv hi => Pool.add_of_get? hv (hpool i v hi)⟩
  · rintro entry rfl
    exact ⟨(Program.compile_ok hmade).1, Program.compile_ok_code hmade⟩
  · rintro e rfl
    exact Program.compile_error_code hmade

end YieldMachine
