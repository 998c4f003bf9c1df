import YieldMachine.Compile.Emission

/-!
# Programs

A program is a sequence of instruction words with its constants. Statements are
compiled onto its end, one after the other, so offsets and constant numbers stay
valid. A statement that does not compile leaves the words as they are.
-/

namespace YieldMachine

/-! ## Types -/

/-- Instruction words and constants. -/
structure Program where
  code : Array Word
  pool : Pool
  deriving Inhabited

/-- What compiling one statement gives: its entry or an error, and what is kept. -/
structure Compiled where
  entry : Except CompileError Nat
  program : Program
  journal : Journal

/-! ## Algorithm -/

/-- The program without words and constants. -/
def Program.empty : Program := ⟨#[], .empty⟩

/-- Compile one statement onto the end. When it fails, the words that were emitted for it are
taken back; the constants that it added stay. -/
def Program.compile (program : Program) (journal : Journal) (node : Node) : Compiled :=
  match program with
  | ⟨code, pool⟩ =>
    let start := code.size
    match emitStatement node ⟨code, pool, journal⟩ with
    | .ok entry ⟨code, pool, journal⟩ => ⟨.ok entry, ⟨code, pool⟩, journal⟩
    | .error e ⟨code, pool, journal⟩ => ⟨.error e, ⟨code.shrink start, pool⟩, journal⟩

end YieldMachine
