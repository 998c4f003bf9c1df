import YieldMachine.Proofs.Compile.Emitted
import YieldMachine.Proofs.Compile.Sharing

/-!
# Counting

A list of integers that counts on from those in a pool fills the pool number by number. It is
lowered as long as there are numbers left, and refused at the first integer that finds none. So
an array of integers that does not fit into one chunk still compiles.

    lowerChunks_counts     all the integers get a number
    lowerChunks_counting   the last one does not
-/

namespace YieldMachine

/-! ## Numbers -/

/-- How many constants an operand can address. -/
def Pool.room : Nat := 32768

theorem Operand.checked_natCast {mode : Mode} {field : AddressField} (i : Nat) :
    Operand.checked mode i field =
      if i < Pool.room then .ok ⟨mode, i⟩ else .error (.addressOverflow field i) := by
  unfold Operand.checked Operand.fits Pool.room
  refine if_congr ?_ rfl rfl
  simp only [Bool.and_eq_true, decide_eq_true_eq]
  omega

/-! ## Integers -/

/-- Literals of `n` integers from `k` on. -/
def counting (k n : Nat) : List Node :=
  (List.range' k n).map fun i => .literal (.int (Int64.ofNat i))

/-- The integers themselves. -/
def integers (k n : Nat) : List Literal :=
  (List.range' k n).map fun i => .int (Int64.ofNat i)

theorem counting_eq (k n : Nat) : counting k n = (integers k n).map .literal :=
  List.map_map.symm

/-- The constants are the integers below `n`. -/
def Counts (p : Pool) (n : Nat) : Prop :=
  ∀ i : Nat, p.constants[i]? = if i < n then some (.int (Int64.ofNat i)) else none

theorem counts_empty : Counts .empty 0 :=
  fun i => by simp [Pool.empty]

theorem Counts.size {p : Pool} {n : Nat} (h : Counts p n) : p.size = n := by
  have hle : ∀ i, p.constants.size ≤ i ↔ n ≤ i := by
    intro i
    rw [← Array.getElem?_eq_none_iff, h i]
    split
    · next hi => simp [hi]
    · next hi => simp [Nat.le_of_not_lt hi]
  exact Nat.le_antisymm ((hle n).2 (Nat.le_refl n)) ((hle _).1 (Nat.le_refl _))

/-- An integer that is not counted yet goes behind the others. -/
theorem Counts.add {p : Pool} {n : Nat} {m : Int64} (h : Counts p n)
    (hn : n ≤ Pool.room + 1) (hm : ∀ i : Nat, i < n → m.toInt ≠ (i : Int)) :
    (p.add (.int m)).1 = n ∧ (p.add (.int m)).2.constants = p.constants.push (.int m) := by
  have hroom : Pool.room = 32768 := rfl
  have habsent : ∀ i : Nat, p.constants[i]? ≠ some (.int m) := by
    intro i hi
    rw [h i] at hi
    split at hi
    · next hlt =>
      cases hi
      exact hm i hlt (Int64.toInt_ofNat_of_lt (by omega))
    · cases hi
  obtain ⟨hnumber, hconstants⟩ := Pool.add_of_absent fun _ => habsent
  exact ⟨hnumber.trans h.size, hconstants⟩

theorem Counts.succ {p : Pool} {n : Nat} (h : Counts p n) (hn : n ≤ Pool.room) :
    (p.add (.int (Int64.ofNat n))).1 = n ∧ Counts (p.add (.int (Int64.ofNat n))).2 (n + 1) := by
  have hroom : Pool.room = 32768 := rfl
  obtain ⟨hnumber, hconstants⟩ := h.add (Nat.le_succ_of_le hn) (m := Int64.ofNat n)
    fun i hi => by rw [Int64.toInt_ofNat_of_lt (by omega)]; omega
  refine ⟨hnumber, fun i => ?_⟩
  rw [hconstants, Array.getElem?_push, h i]
  have hsize : p.constants.size = n := h.size
  grind

/-! ## Lowering -/

theorem lower_int (offset : Nat) (dest : Operand) (m : Int64) (b : Workbench) :
    lower offset dest (.literal (.int m)) b =
      if (b.pool.add (.int m)).1 < Pool.room then
        .ok ⟨#[], ⟨.data, (b.pool.add (.int m)).1⟩⟩ ⟨(b.pool.add (.int m)).2, b.journal⟩
      else .error (.addressOverflow .dataIndex (b.pool.add (.int m)).1)
        ⟨(b.pool.add (.int m)).2, b.journal⟩ := by
  rw [lower]
  simp only [Lowering.constant, Bind.bind, EStateM.bind, Literal.value, Lowering.add_run,
    Operand.data, Operand.checked_natCast]
  by_cases h : (b.pool.add (.int m)).1 < Pool.room
  · rw [if_pos h, if_pos h]
    rfl
  · rw [if_neg h, if_neg h]
    rfl

/-- As long as there are numbers left, the integers get them one after the other. -/
theorem lowerChunks_counts (offset : Nat) (journal : Journal) : ∀ (n : Nat) {m k : Nat} {p : Pool}
    {code : Array Instruction}, Counts p m → m + n ≤ Pool.room →
    ∃ code' q, lowerChunks offset code k (counting m n) ⟨p, journal⟩ =
      .ok code' ⟨q, journal⟩ ∧ Counts q (m + n) := by
  intro n
  induction n with
  | zero =>
    intro m k p code h _
    rw [counting, List.range'_zero, List.map_nil, lowerChunks]
    exact ⟨code, p, rfl, h⟩
  | succ n ih =>
    intro m k p code h hm
    obtain ⟨hnumber, hcounts⟩ := h.succ (by omega)
    rw [counting, List.range'_succ, List.map_cons, lowerChunks]
    simp only [Bind.bind, EStateM.bind, lower_int]
    rw [if_pos (by omega)]
    obtain ⟨code', q, hlower, hcounts'⟩ := ih hcounts (by omega)
    exact ⟨code', q, hlower, by rwa [Nat.add_assoc, Nat.add_comm 1 n] at hcounts'⟩

/-- By induction on the integers that are left: the one that finds the pool full is refused. -/
theorem lowerChunks_counting (offset : Nat) (journal : Journal) : ∀ (n : Nat) {m k : Nat} {p : Pool}
    {code : Array Instruction}, Counts p m → m + n = Pool.room →
    ∃ q, lowerChunks offset code k (counting m (n + 1)) ⟨p, journal⟩ =
      .error (.addressOverflow .dataIndex Pool.room) ⟨q, journal⟩ ∧ Counts q (Pool.room + 1) := by
  intro n
  induction n with
  | zero =>
    intro m k p code h hm
    obtain rfl : m = Pool.room := hm
    obtain ⟨hnumber, hcounts⟩ := h.succ (Nat.le_refl _)
    refine ⟨_, ?_, hcounts⟩
    rw [counting, List.range'_succ, List.map_cons, lowerChunks]
    simp only [Bind.bind, EStateM.bind, lower_int]
    rw [if_neg (by omega), hnumber]
  | succ n ih =>
    intro m k p code h hm
    have hlt : m < Pool.room := by omega
    obtain ⟨hnumber, hcounts⟩ := h.succ (Nat.le_of_lt hlt)
    rw [counting, List.range'_succ, List.map_cons, lowerChunks]
    simp only [Bind.bind, EStateM.bind, lower_int]
    rw [if_pos (by omega)]
    exact ih hcounts (by omega)

/-- An array of more integers than a chunk holds compiles, if there is a number for each. -/
theorem Program.compile_counting {n : Nat} (hlong : chunkLength < n) (hn : n ≤ Pool.room)
    (journal : Journal) :
    ∃ program, Program.empty.compile journal (.array (counting 0 n)) =
      ⟨.ok 0, program, journal⟩ := by
  have hlength : ¬ (counting 0 n).length ≤ chunkLength := by
    rw [counting, List.length_map, List.length_range']
    exact Nat.not_le_of_lt hlong
  obtain ⟨code, q, hlower, -⟩ := @lowerChunks_counts 0 journal n 0 0 .empty #[] counts_empty
    ((Nat.zero_add n).symm ▸ hn)
  rw [Program.empty, Program.compile_eq]
  simp only [lower, if_neg hlength, Bind.bind, EStateM.bind, List.size_toArray, List.length_nil]
  rw [hlower]
  exact ⟨_, rfl⟩

end YieldMachine
