import YieldMachine.Proofs.Flow.Compiled

/-!
# Where the parts of a for loop stand

The code of a loop spawns its producers one by one, each spawn with the code of its
iterator behind it and the store of its value behind that. Then comes the pass that is
repeated: it drops the value so far, runs the body, takes the next value of every
producer, and jumps back. The last instruction closes the loop.

    spawnAt k … takeAt k   producer `k`: its start, and the store of its first value
    passAt, bodyAt         the pass, and the body in it
    resumeAt k, retakeAt k producer `k` in the pass: its resumption, and the store
    exitAt                 where the loop is left
-/

namespace YieldMachine

/-- The pieces of a for loop, and where its code starts. -/
structure Loop where
  base : Nat
  nil : Operand
  targets : List Operand
  iterators : List (List Instruction)
  body : List Instruction

namespace Loop

variable (l : Loop)

/-- How many producers the loop has. -/
def count : Nat := l.targets.length

/-- The place of the spawn of producer `k`. -/
def spawnAt (k : Nat) : Nat :=
  l.base + 2 + (spawnAll 0 ((l.targets.zip l.iterators).take k)).length

/-- The place where the first value of producer `k` is stored. -/
def takeAt (k : Nat) : Nat :=
  l.spawnAt k + (l.iterators.getD k []).length + 2

/-- The place of the pass that is repeated. -/
def passAt : Nat := l.spawnAt l.count

/-- The place of the body. -/
def bodyAt : Nat := l.passAt + 1

/-- The place where producer `k` is resumed. -/
def resumeAt (k : Nat) : Nat := l.bodyAt + l.body.length + 2 * k

/-- The place where a later value of producer `k` is stored. -/
def retakeAt (k : Nat) : Nat := l.resumeAt k + 1

/-- The place where the loop is closed. -/
def exitAt : Nat := l.resumeAt l.count + 1

/-- The loop is what a node of the tree was compiled to, and stands in the program. -/
structure In (program : Program) (l : Loop) (refs : List Ref) (iterators : List Node)
    (body : Node) : Prop where
  nil : program.pool.Constant l.nil .nil
  lengths : refs.length = iterators.length
  refs : List.Forall₂ program.pool.Variable refs l.targets
  iterators : CodeIterators program.pool iterators l.iterators
  body : ∃ code r, Code program.pool .stack body code r ∧ l.body = pushed code r
  holds : program.Holds l.base (forCode l.nil l.targets l.iterators l.body)

end Loop

/-- The code of a loop, wherever it stands, is one. -/
theorem Code.loop {program : Program} {dest r : Operand} {refs : List Ref}
    {iterators : List Node} {body : Node} {code : List Instruction} {base : Nat}
    (h : Code program.pool dest (.forEach refs iterators body) code r)
    (hh : program.Holds base code) :
    ∃ l : Loop, l.base = base ∧ l.In program refs iterators body := by
  rw [Code] at h
  obtain ⟨rfl, nil, targets, its, bc, br, hnil, hcount, hrefs, hits, hbody, rfl⟩ := h
  exact ⟨⟨base, nil, targets, its, pushed bc br⟩, rfl, hnil, hcount, hrefs, hits,
    ⟨bc, br, hbody, rfl⟩, hh⟩

/-! ## Lengths -/

theorem spawnAll_append (rest : Nat) (xs ys : List (Operand × List Instruction)) :
    (spawnAll rest (xs ++ ys)).length = (spawnAll 0 xs).length + (spawnAll rest ys).length := by
  induction xs with
  | nil => simp [spawnAll]
  | cons x xs ih =>
    simp only [List.cons_append, spawnAll, List.length_cons, List.length_append,
      List.length_nil] at ih ⊢
    omega

theorem spawnAll_take_succ {its : List (Operand × List Instruction)} {k : Nat} {target : Operand}
    {iterator : List Instruction} (h : its[k]? = some (target, iterator)) :
    (spawnAll 0 (its.take (k + 1))).length =
      (spawnAll 0 (its.take k)).length + iterator.length + 3 := by
  rw [List.take_add_one, h, Option.toList_some, spawnAll_append]
  simp only [spawnAll, List.length_cons, List.length_append, List.length_nil]
  omega

/-! ## Instructions -/

variable {program : Program}

/-- The spawn and the store of one of several producers. -/
theorem Program.Holds.spawnOf {rest : Nat} (its : List (Operand × List Instruction)) :
    ∀ {base k : Nat} {target : Operand} {iterator : List Instruction},
      program.Holds base (spawnAll rest its) → its[k]? = some (target, iterator) →
      (∃ i, program.instruction? (base + (spawnAll 0 (its.take k)).length) = some i ∧
        i.opcode = .spawn ∧
        Program.jumpTarget (base + (spawnAll 0 (its.take k)).length) i.a =
          base + (spawnAll 0 (its.take k)).length + iterator.length + 2 ∧
        Program.jumpTarget (base + (spawnAll 0 (its.take k)).length) i.b =
          base + (spawnAll 0 its).length + rest) ∧
      program.instruction?
        (base + (spawnAll 0 (its.take k)).length + iterator.length + 2) =
          some ⟨.move, target, .stack, .unused⟩ := by
  induction its with
  | nil => exact fun _ h => by cases h
  | cons it its ih =>
    obtain ⟨first, piece⟩ := it
    intro base k target iterator hh hk
    have hlen := spawnAll_length_eq 0 rest its
    simp only [spawnAll, Program.Holds, Program.holds_append, List.length_append,
      List.length_cons, List.length_nil, ← Nat.add_assoc, Nat.add_zero] at hh
    obtain ⟨hspawn, ⟨-, -, hmove, -⟩, htail⟩ := hh
    cases k with
    | zero =>
      cases hk
      refine ⟨⟨_, hspawn, rfl, ?_, ?_⟩, ?_⟩
      · rw [Program.jumpTarget_jump]
        simp only [List.take_zero, spawnAll, List.length_nil]
        omega
      · rw [Program.jumpTarget_jump]
        simp only [List.take_zero, spawnAll, List.length_nil, List.length_cons,
          List.length_append]
        omega
      · rw [← hmove]
        congr 1
        simp only [List.take_zero, spawnAll, List.length_nil]
        omega
    | succ k =>
      obtain ⟨⟨i, hi, hop, ha, hb⟩, hm⟩ := ih htail hk
      have hbase : base + (spawnAll 0 (((first, piece) :: its).take (k + 1))).length =
          base + 1 + piece.length + 2 + (spawnAll 0 (its.take k)).length := by
        simp only [List.take_succ_cons, spawnAll, List.length_cons,
          List.length_append, List.length_nil]
        omega
      rw [hbase]
      refine ⟨⟨i, hi, hop, ha, ?_⟩, hm⟩
      rw [hb]
      simp only [spawnAll, List.length_cons, List.length_append, List.length_nil]
      omega

/-- The iterator of one of several producers stands behind its spawn, with its end behind it. -/
theorem Program.Holds.iteratorOf {rest : Nat} (its : List (Operand × List Instruction)) :
    ∀ {base k : Nat} {target : Operand} {iterator : List Instruction},
      program.Holds base (spawnAll rest its) → its[k]? = some (target, iterator) →
      program.Holds (base + (spawnAll 0 (its.take k)).length + 1)
        (iterator ++ [.bare .endIter]) := by
  induction its with
  | nil => exact fun _ h => by cases h
  | cons it its ih =>
    obtain ⟨first, piece⟩ := it
    intro base k target iterator hh hk
    simp only [spawnAll, Program.Holds, Program.holds_append, List.length_append,
      List.length_cons, List.length_nil, ← Nat.add_assoc, Nat.add_zero] at hh
    obtain ⟨-, ⟨hpiece, hend, -⟩, htail⟩ := hh
    cases k with
    | zero =>
      cases hk
      exact Program.holds_append.2 ⟨hpiece, hend, trivial⟩
    | succ k =>
      have := ih htail hk
      rwa [show base + (spawnAll 0 (((first, piece) :: its).take (k + 1))).length =
          base + 1 + piece.length + 2 + (spawnAll 0 (its.take k)).length by
        simp only [List.take_succ_cons, spawnAll, List.length_cons, List.length_append,
          List.length_nil]
        omega]

/-- The resumption and the store of one of several producers. -/
theorem Program.Holds.resumeOf (targets : List Operand) :
    ∀ {base first k : Nat} {target : Operand},
      program.Holds base (resumeAll first targets) → targets[k]? = some target →
      (∃ i, program.instruction? (base + 2 * k) = some i ∧ i.opcode = .resume ∧
        i.a = ⟨.immediate, (first + k : Nat)⟩ ∧
        Program.jumpTarget (base + 2 * k) i.b = base + 2 * targets.length + 1) ∧
      program.instruction? (base + 2 * k + 1) = some ⟨.move, target, .stack, .unused⟩ := by
  induction targets with
  | nil => exact fun _ h => by cases h
  | cons o targets ih =>
    intro base first k target hh hk
    simp only [resumeAll, Program.Holds] at hh
    obtain ⟨hresume, hmove, htail⟩ := hh
    cases k with
    | zero =>
      cases hk
      refine ⟨⟨_, hresume, rfl, rfl, ?_⟩, hmove⟩
      rw [Program.jumpTarget_jump, List.length_cons]
      omega
    | succ k =>
      obtain ⟨⟨i, hi, hop, ha, hb⟩, hm⟩ := ih htail hk
      rw [show base + 1 + 1 + 2 * k = base + 2 * (k + 1) by omega] at hi hb hm
      refine ⟨⟨i, hi, hop, ?_, ?_⟩, hm⟩
      · rw [ha, show first + 1 + k = first + (k + 1) by omega]
      · rw [hb, List.length_cons]
        omega

namespace Loop

variable {l : Loop} {k : Nat}

theorem spawnAt_zero : l.spawnAt 0 = l.base + 2 := by
  simp [spawnAt, spawnAll]

theorem retakeAt_succ : l.retakeAt k + 1 = l.resumeAt (k + 1) := by
  unfold retakeAt resumeAt
  omega

theorem resumeAt_zero : l.resumeAt 0 = l.bodyAt + l.body.length := by
  unfold resumeAt
  omega

section

variable {refs : List Ref} {iterators : List Node} {body : Node}

theorem In.length_eq (h : l.In program refs iterators body) :
    l.targets.length = l.iterators.length := by
  rw [← h.refs.length_eq, h.lengths, CodeIterators.length_eq _ h.iterators]

theorem In.producer (h : l.In program refs iterators body) (hk : k < l.count) :
    ∃ target, l.targets[k]? = some target ∧
      (l.targets.zip l.iterators)[k]? = some (target, l.iterators.getD k []) := by
  have hlen := h.length_eq
  have hk' : k < l.targets.length := hk
  refine ⟨l.targets[k], List.getElem?_eq_getElem hk', ?_⟩
  rw [List.getElem?_zip_eq_some, List.getElem?_eq_getElem hk', List.getD_eq_getElem?_getD,
    List.getElem?_eq_getElem (by omega)]
  exact ⟨rfl, rfl⟩

theorem In.takeAt_succ (h : l.In program refs iterators body) (hk : k < l.count) :
    l.takeAt k + 1 = l.spawnAt (k + 1) := by
  obtain ⟨target, -, hzip⟩ := h.producer hk
  unfold takeAt spawnAt
  rw [spawnAll_take_succ hzip]
  omega

theorem In.passAt_eq (h : l.In program refs iterators body) :
    l.passAt = l.base + 2 + (spawnAll 0 (l.targets.zip l.iterators)).length := by
  have hlen := h.length_eq
  unfold passAt spawnAt
  rw [List.take_of_length_le (by rw [List.length_zip]; unfold count; omega)]

/-- The parts of the code of a loop. -/
theorem In.parts (h : l.In program refs iterators body) :
    program.instruction? l.base = some ⟨.move, .stack, l.nil, .unused⟩ ∧
    program.instruction? (l.base + 1) = some (.bare .iterBegin) ∧
    program.Holds (l.base + 2)
      (spawnAll (l.body.length + 2 * l.count + 2) (l.targets.zip l.iterators)) ∧
    program.instruction? l.passAt = some (.bare .pop) ∧ program.Holds l.bodyAt l.body ∧
    program.Holds (l.resumeAt 0) (resumeAll 0 l.targets) ∧
    (∃ i, program.instruction? (l.resumeAt l.count) = some i ∧ i.opcode = .jump ∧
      Program.jumpTarget (l.resumeAt l.count) i.a = l.passAt) ∧
    program.instruction? l.exitAt = some (.bare .iterEnd) := by
  obtain ⟨top, hl⟩ := h.holds.loop
  have hpassAt : l.passAt = top := by
    rw [h.passAt_eq, hl.top_eq]
    exact congrArg _ (spawnAll_length_eq _ _ _)
  have hbodyAt : l.bodyAt = top + 1 := by
    unfold bodyAt
    omega
  have hresumeAt : ∀ k, l.resumeAt k = top + 1 + l.body.length + 2 * k := by
    intro k
    unfold resumeAt
    omega
  have hcount : l.targets.length = l.count := rfl
  have hback := hl.back
  have hcloses := hl.closes
  rw [hcount, ← hresumeAt] at hback
  rw [hcount, show top + l.body.length + 2 * l.count + 2 = l.exitAt by
    unfold exitAt; rw [hresumeAt]; omega] at hcloses
  refine ⟨hl.init, hl.opens, hl.producers, hpassAt ▸ hl.starts, hbodyAt ▸ hl.body, ?_,
    ⟨_, hback, rfl, ?_⟩, hcloses⟩
  · rw [hresumeAt]
    exact hl.resumes
  · rw [Program.jumpTarget_back (by rw [hresumeAt]; omega), hresumeAt, hpassAt]
    omega

theorem In.spawn (h : l.In program refs iterators body) (hk : k < l.count) :
    ∃ i, program.instruction? (l.spawnAt k) = some i ∧ i.opcode = .spawn ∧
      Program.jumpTarget (l.spawnAt k) i.a = l.takeAt k ∧
      Program.jumpTarget (l.spawnAt k) i.b = l.exitAt := by
  obtain ⟨-, -, hspawn, -⟩ := h.parts
  obtain ⟨target, -, hzip⟩ := h.producer hk
  obtain ⟨⟨i, hi, hop, ha, hb⟩, -⟩ := hspawn.spawnOf _ hzip
  refine ⟨i, hi, hop, ha, hb.trans ?_⟩
  have := h.passAt_eq
  unfold exitAt resumeAt bodyAt
  omega

theorem In.iterator (h : l.In program refs iterators body) (hk : k < l.count) :
    program.Holds (l.spawnAt k + 1) (l.iterators.getD k [] ++ [.bare .endIter]) := by
  obtain ⟨-, -, hspawn, -⟩ := h.parts
  obtain ⟨target, -, hzip⟩ := h.producer hk
  exact hspawn.iteratorOf _ hzip

theorem In.take (h : l.In program refs iterators body) (hk : k < l.count) :
    ∃ target, l.targets[k]? = some target ∧
      program.instruction? (l.takeAt k) = some ⟨.move, target, .stack, .unused⟩ := by
  obtain ⟨-, -, hspawn, -⟩ := h.parts
  obtain ⟨target, htarget, hzip⟩ := h.producer hk
  exact ⟨target, htarget, (hspawn.spawnOf _ hzip).2⟩

theorem In.resume (h : l.In program refs iterators body) (hk : k < l.count) :
    ∃ i, program.instruction? (l.resumeAt k) = some i ∧ i.opcode = .resume ∧
      i.a.address.toNat = k ∧ Program.jumpTarget (l.resumeAt k) i.b = l.exitAt := by
  obtain ⟨-, -, -, -, -, hresume, -⟩ := h.parts
  obtain ⟨target, htarget, -⟩ := h.producer hk
  obtain ⟨⟨i, hi, hop, ha, hb⟩, -⟩ := hresume.resumeOf _ htarget
  have hat : l.resumeAt 0 + 2 * k = l.resumeAt k := by
    unfold resumeAt
    omega
  rw [hat] at hi hb
  refine ⟨i, hi, hop, by rw [ha]; simp, hb.trans ?_⟩
  unfold exitAt resumeAt count
  omega

theorem In.retake (h : l.In program refs iterators body) (hk : k < l.count) :
    ∃ target, l.targets[k]? = some target ∧
      program.instruction? (l.retakeAt k) = some ⟨.move, target, .stack, .unused⟩ := by
  obtain ⟨-, -, -, -, -, hresume, -⟩ := h.parts
  obtain ⟨target, htarget, -⟩ := h.producer hk
  obtain ⟨-, hm⟩ := hresume.resumeOf _ htarget
  have hat : l.resumeAt 0 + 2 * k + 1 = l.retakeAt k := by
    unfold retakeAt resumeAt
    omega
  exact ⟨target, htarget, hat ▸ hm⟩

/-! ## Which store stands where -/

theorem In.takeAt_lt (h : l.In program refs iterators body) {j : Nat} (hk : k < l.count)
    (hj : j < k) : l.takeAt j < l.takeAt k := by
  have hmono : ∀ n, j + 1 ≤ n → n ≤ l.count → l.spawnAt (j + 1) ≤ l.spawnAt n := by
    intro n hn
    induction hn with
    | refl => exact fun _ => Nat.le_refl _
    | @step n hn ih =>
      intro hle
      have hsucc := h.takeAt_succ (k := n) hle
      have := ih (by omega)
      unfold takeAt at hsucc
      show l.spawnAt (j + 1) ≤ l.spawnAt (n + 1)
      omega
  have hsucc := h.takeAt_succ (k := j) (by omega)
  have := hmono k hj (by omega)
  unfold takeAt at hsucc ⊢
  omega

theorem In.takeAt_lt_passAt (h : l.In program refs iterators body) (hk : k < l.count) :
    l.takeAt k < l.passAt := by
  have hle : l.takeAt k ≤ l.takeAt (l.count - 1) := by
    rcases Nat.lt_or_eq_of_le (show k ≤ l.count - 1 by omega) with hlt | heq
    · exact Nat.le_of_lt (h.takeAt_lt (by omega) hlt)
    · exact Nat.le_of_eq (congrArg l.takeAt heq)
  have hsucc := h.takeAt_succ (k := l.count - 1) (by omega)
  rw [show l.count - 1 + 1 = l.count by omega] at hsucc
  unfold passAt
  omega

end

end Loop

end YieldMachine
