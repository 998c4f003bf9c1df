import YieldMachine.Proofs.Run.Stretch

/-!
# Where the parts of an array literal stand

The code of an array literal puts the values of its elements onto the stack one by one. A
short literal makes the array of them all at the end. In a long one, the code behind an
element that fills a chunk, and behind the last element, makes an array of the chunk, and
joins it to the array of the chunks before it.

    startAt k, endAt k   element `k`, and where its code has come to its end
    behind k             the code between element `k` and the next one
    lastAt, exitAt       where the array is brought to its destination, and the end
-/

namespace YieldMachine

/-! ## Definitions -/

/-- The code behind element `k` of `count` elements. -/
def codeBehind (count k : Nat) : List Instruction :=
  if chunkLength < count then (gather (k + 1) (k + 1 = count)).toList else []

/-- The code of `count` elements from element `k` on. -/
def rowCode (count k : Nat) : List (List Instruction) → List Instruction
  | [] => []
  | piece :: pieces => piece ++ codeBehind count k ++ rowCode count (k + 1) pieces

/-- The pieces of an array literal, and where its code starts. -/
structure Row where
  base : Nat
  dest : Operand
  elements : List (List Instruction)

namespace Row

variable (row : Row)

/-- How many elements the literal has. -/
def count : Nat := row.elements.length

/-- The code behind element `k`. -/
def behind (k : Nat) : List Instruction := codeBehind row.count k

/-- The code behind all elements. -/
def last : List Instruction :=
  if chunkLength < row.count then moved .stack row.dest
  else [⟨.makeArray, row.dest, ⟨.immediate, row.count⟩, .unused⟩]

/-- The code of the literal. -/
def code : List Instruction := rowCode row.count 0 row.elements ++ row.last

/-- The place of element `k`. -/
def startAt : Nat → Nat
  | 0 => row.base
  | k + 1 => startAt k + (row.elements.getD k []).length + (row.behind k).length

/-- The place behind the code of element `k`. -/
def endAt (k : Nat) : Nat := row.startAt k + (row.elements.getD k []).length

/-- The place behind all elements. -/
def lastAt : Nat := row.startAt row.count

/-- The place behind the literal. -/
def exitAt : Nat := row.lastAt + row.last.length

/-- The value of element `k` completes a chunk of a long literal. -/
def Fills (k : Nat) : Prop :=
  chunkLength < row.count ∧ ((k + 1) % chunkLength = 0 ∨ k + 1 = row.count)

instance (k : Nat) : Decidable (row.Fills k) :=
  inferInstanceAs (Decidable (_ ∧ _))

/-- The code of a node, with its value put on the stack. -/
def Piece (program : Program) (node : Node) (piece : List Instruction) : Prop :=
  ∃ code r, Code program.pool .stack node code r ∧ piece = pushed code r

/-- The literal is what an array node of the tree was compiled to, and stands in the program. -/
structure In (program : Program) (row : Row) (nodes : List Node) : Prop where
  compiled : Code program.pool row.dest (.array nodes) row.code row.dest
  elements : List.Forall₂ (Piece program) nodes row.elements
  holds : program.Holds row.base row.code

end Row

/-! ## Compiled literals -/

section

variable {program : Program} {nodes : List Node} {code : List Instruction} {count k : Nat}

theorem CodeAll.pieces (h : CodeAll program.pool nodes code) (hcount : count ≤ chunkLength) :
    ∃ pieces, List.Forall₂ (Row.Piece program) nodes pieces ∧ code = rowCode count k pieces := by
  induction nodes generalizing k code with
  | nil =>
    rw [CodeAll] at h
    exact ⟨[], .nil, h⟩
  | cons node nodes ih =>
    rw [CodeAll] at h
    obtain ⟨vc, vr, rest, hnode, hrest, rfl⟩ := h
    obtain ⟨pieces, hpieces, rfl⟩ := ih (k := k + 1) hrest
    refine ⟨pushed vc vr :: pieces, .cons ⟨vc, vr, hnode, rfl⟩ hpieces, ?_⟩
    rw [rowCode, codeBehind, if_neg (Nat.not_lt_of_le hcount), List.append_nil]

theorem CodeChunks.pieces (h : CodeChunks program.pool k nodes code) (hlong : chunkLength < count)
    (hcount : k + nodes.length = count) :
    ∃ pieces, List.Forall₂ (Row.Piece program) nodes pieces ∧ code = rowCode count k pieces := by
  induction nodes generalizing k code with
  | nil =>
    rw [CodeChunks] at h
    exact ⟨[], .nil, h⟩
  | cons node nodes ih =>
    rw [CodeChunks] at h
    obtain ⟨vc, vr, rest, hnode, hrest, rfl⟩ := h
    rw [List.length_cons] at hcount
    obtain ⟨pieces, hpieces, rfl⟩ := ih hrest (by omega)
    refine ⟨pushed vc vr :: pieces, .cons ⟨vc, vr, hnode, rfl⟩ hpieces, ?_⟩
    -- the last element is the one with no node behind it
    have hlast : nodes.isEmpty = decide (k + 1 = count) := by
      rw [Bool.eq_iff_iff, List.isEmpty_iff_length_eq_zero, decide_eq_true_eq]
      omega
    rw [rowCode, codeBehind, if_pos hlong, hlast]

/-- The code of an array literal is made of the pieces of its elements. -/
theorem Code.pieces {dest r : Operand} (h : Code program.pool dest (.array nodes) code r)
    (base : Nat) :
    r = dest ∧ ∃ pieces, List.Forall₂ (Row.Piece program) nodes pieces ∧
      code = Row.code ⟨base, dest, pieces⟩ := by
  rw [Code] at h
  obtain ⟨hr, h⟩ := h
  refine ⟨hr, ?_⟩
  split at h
  · next hshort =>
    obtain ⟨ec, hec, rfl⟩ := h
    obtain ⟨pieces, hpieces, rfl⟩ := hec.pieces hshort (k := 0)
    refine ⟨pieces, hpieces, ?_⟩
    rw [Row.code, Row.last, Row.count, ← hpieces.length_eq, if_neg (Nat.not_lt_of_le hshort)]
  · next hlong =>
    obtain ⟨ec, hec, rfl⟩ := h
    obtain ⟨pieces, hpieces, rfl⟩ := hec.pieces (Nat.lt_of_not_le hlong) (Nat.zero_add _)
    refine ⟨pieces, hpieces, ?_⟩
    rw [Row.code, Row.last, Row.count, ← hpieces.length_eq, if_pos (Nat.lt_of_not_le hlong)]

/-- The code of an array literal, wherever it stands, is one. -/
theorem Code.row {dest r : Operand} {base : Nat}
    (h : Code program.pool dest (.array nodes) code r) (hh : program.Holds base code) :
    ∃ row : Row, row.base = base ∧ row.dest = dest ∧ row.code = code ∧ row.In program nodes := by
  obtain ⟨rfl, pieces, hpieces, rfl⟩ := h.pieces base
  exact ⟨⟨base, r, pieces⟩, rfl, rfl, rfl, h, hpieces, hh⟩

end

/-! ## Places -/

namespace Row

variable {program : Program} {row : Row} {nodes : List Node} {k : Nat}

theorem startAt_succ (row : Row) (k : Nat) :
    row.startAt (k + 1) = row.endAt k + (row.behind k).length := rfl

/-- What is before element `k` and what is from there on make up the code of all elements. -/
theorem startAt_add_length (hk : k ≤ row.count) :
    row.startAt k + (rowCode row.count k (row.elements.drop k)).length =
      row.base + (rowCode row.count 0 row.elements).length := by
  induction k with
  | zero => rfl
  | succ k ih =>
    have hpiece : row.elements.getD k [] = row.elements[k] := by
      rw [List.getD_eq_getElem?_getD, List.getElem?_eq_getElem hk, Option.getD_some]
    rw [← ih (Nat.le_of_succ_le hk), List.drop_eq_getElem_cons hk, ← hpiece, rowCode,
      List.length_append, List.length_append, startAt_succ, endAt, behind]
    omega

theorem exitAt_eq (row : Row) : row.exitAt = row.base + row.code.length := by
  have hlast := startAt_add_length (Nat.le_refl row.count)
  rw [show row.elements.drop row.count = [] from List.drop_length] at hlast
  rw [exitAt, lastAt, code, List.length_append, ← Nat.add_assoc, ← hlast]
  rfl

theorem In.count_eq (h : row.In program nodes) : row.count = nodes.length :=
  h.elements.length_eq.symm

/-- The code from element `k` on is the element, the code behind it, and the rest. -/
theorem holds_split (hk : k < row.count)
    (h : program.Holds (row.startAt k) (rowCode row.count k (row.elements.drop k) ++ row.last)) :
    program.Holds (row.startAt k) (row.elements.getD k []) ∧
      program.Holds (row.endAt k) (row.behind k) ∧
      program.Holds (row.startAt (k + 1))
        (rowCode row.count (k + 1) (row.elements.drop (k + 1)) ++ row.last) := by
  have hpiece : row.elements.getD k [] = row.elements[k] := by
    rw [List.getD_eq_getElem?_getD, List.getElem?_eq_getElem hk, Option.getD_some]
  rw [List.drop_eq_getElem_cons hk, ← hpiece, rowCode, List.append_assoc, List.append_assoc,
    Program.holds_append, Program.holds_append] at h
  exact h

/-- From element `k` on, the code of the literal stands at the place of the element. -/
theorem In.rest (h : row.In program nodes) (hk : k ≤ row.count) :
    program.Holds (row.startAt k) (rowCode row.count k (row.elements.drop k) ++ row.last) := by
  induction k with
  | zero => exact h.holds
  | succ k ih => exact (holds_split hk (ih (Nat.le_of_succ_le hk))).2.2

theorem In.last (h : row.In program nodes) : program.Holds row.lastAt row.last := by
  have hrest := h.rest (Nat.le_refl _)
  rwa [show row.elements.drop row.count = [] from List.drop_length, rowCode,
    List.nil_append] at hrest

theorem In.behind (h : row.In program nodes) (hk : k < row.count) :
    program.Holds (row.endAt k) (row.behind k) :=
  (holds_split hk (h.rest (Nat.le_of_lt hk))).2.1

/-- Element `k` is a node of the tree, and its code stands at its place. -/
theorem In.piece (h : row.In program nodes) (hk : k < row.count) :
    ∃ node code r, nodes[k]? = some node ∧ Code program.pool .stack node code r ∧
      program.Holds (row.startAt k) (pushed code r) ∧
      row.endAt k = row.startAt k + (pushed code r).length := by
  have hholds := (holds_split hk (h.rest (Nat.le_of_lt hk))).1
  have hlen : k < nodes.length := h.count_eq ▸ hk
  obtain ⟨code, r, hcode, hpiece⟩ := h.elements.get hlen hk
  have hget : row.elements.getD k [] = pushed code r := by
    rw [← hpiece, List.getD_eq_getElem?_getD, List.getElem?_eq_getElem hk, Option.getD_some]
    rfl
  refine ⟨_, code, r, List.getElem?_eq_getElem hlen, hcode, hget ▸ hholds, ?_⟩
  rw [endAt, hget]

/-- The code of element `k` leaves its value. -/
theorem In.valued (h : row.In program nodes) (hk : k < row.count) :
    program.Valued (row.startAt k) (row.endAt k) := by
  obtain ⟨node, code, r, -, hcode, hholds, hend⟩ := h.piece hk
  rw [hend]
  exact hcode.valued hholds

/-! ## The code behind an element -/

/-- How many values the code behind element `k` makes an array of. -/
def chunkSize (k : Nat) : Nat :=
  if (k + 1) % chunkLength = 0 then chunkLength else (k + 1) % chunkLength

theorem behind_of_not_fills (h : ¬ row.Fills k) : row.behind k = [] := by
  unfold behind codeBehind gather
  split
  · next hlong =>
    rw [if_neg (by simpa using fun hfull => h ⟨hlong, hfull⟩)]
  · rfl

theorem behind_of_fills (h : row.Fills k) : row.behind k =
    ⟨.makeArray, .stack, ⟨.immediate, (chunkSize k : Nat)⟩, .unused⟩ ::
      if chunkLength ≤ k then [⟨.add, .stack, .stack, .stack⟩] else [] := by
  unfold behind codeBehind gather
  rw [if_pos h.1, if_pos (by simpa using h.2)]
  dsimp only
  rw [apply_ite Array.toList, if_congr Nat.lt_succ_iff rfl rfl]
  split <;> rfl

end Row

end YieldMachine
