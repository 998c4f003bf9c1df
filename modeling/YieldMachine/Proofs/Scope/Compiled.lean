import YieldMachine.Proofs.Scope.Place

/-!
# Compiled code keeps its scope

The code of a well-scoped tree names only slots that are there, and leads to the place
behind it in the scope it started with: what stands behind it being well scoped, so is
the code. For loops the proof goes by the number of steps, since each pass takes one more.

    ScopedCode program X n code y   the code keeps the scope `y`
-/

namespace YieldMachine

variable {program : Program} {X : Nat → Scope → Prop} {n base ip : Nat} {y : Scope}

/-! ## Results -/

theorem inScope_pinnedAt {later : List Node} {r : Operand} (h : r.InScope y) :
    (pinnedAt later r).InScope y := by
  unfold pinnedAt
  split
  · exact Operand.inScope_stack
  · exact h

mutual

/-- The value of a well-scoped tree is where it is said to be. -/
theorem Code.inScope (node : Node) {pool : Pool} {dest r : Operand} {code : List Instruction}
    (h : Code pool dest node code r) (hs : node.Scoped y) (hd : dest.InScope y) :
    r.InScope y := by
  cases node with
  | literal value | yield value | ret value =>
    rw [Code] at h
    first
      | exact h.2.inScope
      | exact h.1.inScope
  | ref target =>
    rw [Code] at h
    rw [Node.Scoped] at hs
    exact h.2.inScope hs
  | assign target value =>
    rw [Code] at h
    rw [Node.Scoped] at hs
    exact h.1.inScope hs.1
  | block nodes =>
    rw [Code] at h
    rw [Node.Scoped] at hs
    exact CodeBlock.inScope nodes h hs hd
  | primitive op args =>
    rw [Code] at h
    obtain ⟨-, vc, vr, -, h⟩ := h
    split at h
    · exact h.1.inScope
    · rw [h.1]
      exact hd
  | unary op operand | binary left op right | index target place | len target
  | array elements =>
    rw [Code] at h
    rw [h.1]
    exact hd
  | slice target start stop | cond condition thenBranch elseBranch | loop condition body
  | forEach refs iterators body | function params frameSize body | call callee args =>
    rw [Code] at h
    rw [h.1]
    exact Operand.inScope_stack

theorem CodeBlock.inScope (nodes : List Node) {pool : Pool} {dest r : Operand}
    {code : List Instruction} (h : CodeBlock pool dest nodes code r)
    (hs : Node.ScopedAll y nodes) (hd : dest.InScope y) : r.InScope y := by
  match nodes with
  | [] =>
    rw [CodeBlock] at h
    exact h.2.inScope
  | [last] =>
    rw [CodeBlock] at h
    rw [Node.ScopedAll] at hs
    exact Code.inScope last h hs.1 hd
  | node :: next :: nodes =>
    rw [CodeBlock] at h
    · rw [Node.ScopedAll] at hs
      obtain ⟨vc, vr, rest, -, h, -⟩ := h
      exact CodeBlock.inScope (next :: nodes) h hs.2 hd
    · intro h
      cases h

end

theorem CodeOption.inScope (node : Option Node) {pool : Pool} {r : Operand}
    {code : List Instruction} (h : CodeOption pool node code r)
    (hs : Node.ScopedOption y node) : r.InScope y := by
  cases node with
  | none =>
    rw [CodeOption] at h
    exact h.2.inScope
  | some node =>
    rw [CodeOption] at h
    exact Code.inScope node h hs Operand.inScope_stack

theorem CodeFirst.inScope (nodes : List Node) {pool : Pool} {r : Operand}
    {code : List Instruction} (h : CodeFirst pool nodes code r)
    (hs : Node.ScopedAll y nodes) : r.InScope y := by
  cases nodes with
  | nil =>
    rw [CodeFirst] at h
    rw [h.2]
    exact Operand.inScope_unused
  | cons node nodes =>
    rw [CodeFirst] at h
    rw [Node.ScopedAll] at hs
    exact Code.inScope node h hs.1 Operand.inScope_stack

/-! ## Pieces of code -/

/-- Code that keeps a scope: what stands behind it being well scoped, so is the code. -/
def ScopedCode (program : Program) (X : Nat → Scope → Prop) (n : Nat) (code : List Instruction)
    (y : Scope) : Prop :=
  ∀ base, program.Holds base code → ScopedIn program X n (base + code.length) y →
    ScopedIn program X n base y

theorem ScopedIn.cast {ip' : Nat} (h : ScopedIn program X n ip y) (he : ip = ip') :
    ScopedIn program X n ip' y :=
  he ▸ h

theorem ScopedCode.nil : ScopedCode program X n [] y :=
  fun _ _ h => h

theorem ScopedCode.append {xs ys : List Instruction} (hx : ScopedCode program X n xs y)
    (hy : ScopedCode program X n ys y) : ScopedCode program X n (xs ++ ys) y := by
  intro base hh hs
  rw [Program.holds_append] at hh
  rw [List.length_append, ← Nat.add_assoc] at hs
  exact hx base hh.1 (hy _ hh.2 hs)

/-- Does an instruction only lead behind itself? -/
def Instruction.IsStraight (i : Instruction) : Prop :=
  match i.effect with
  | .jump | .jumpIfFalse | .makeFunction | .spawn | .resume | .ret | .exit | .endIteration =>
    False
  | _ => True

theorem Instruction.IsStraight.leads {i : Instruction} (h : i.IsStraight) :
    i.leads ip y = [(ip + 1, y)] := by
  unfold Instruction.IsStraight at h
  unfold Instruction.leads
  generalize i.effect = e at h ⊢
  cases e <;> first | rfl | exact h.elim

theorem ScopedIn.straight {i : Instruction} (hi : program.instruction? ip = some i)
    (hp : i.IsStraight) (hf : i.InScope y) (hs : ScopedIn program X n (ip + 1) y) :
    ScopedIn program X n ip y := by
  refine ScopedIn.step hi hf fun p hmem => ?_
  rw [hp.leads] at hmem
  cases List.mem_singleton.1 hmem
  exact hs

theorem ScopedIn.bare {opcode : Opcode} (hi : program.instruction? ip = some (.bare opcode))
    (hp : (Instruction.bare opcode).IsStraight) (hs : ScopedIn program X n (ip + 1) y) :
    ScopedIn program X n ip y :=
  ScopedIn.straight hi hp (Instruction.inScope_iff.2
    ⟨Operand.inScope_unused, Operand.inScope_unused, Operand.inScope_unused⟩) hs

theorem ScopedCode.straight {opcode : Opcode} {a b c : Operand}
    (hp : (Instruction.mk opcode a b c).IsStraight) (ha : a.InScope y) (hb : b.InScope y)
    (hc : c.InScope y) : ScopedCode program X n [⟨opcode, a, b, c⟩] y :=
  fun _ hh hs => ScopedIn.straight hh.1 hp (Instruction.inScope_iff.2 ⟨ha, hb, hc⟩) hs

theorem ScopedCode.moved {r dest : Operand} (hr : r.InScope y) (hd : dest.InScope y) :
    ScopedCode program X n (moved r dest) y := by
  unfold YieldMachine.moved materialize
  split
  · exact ScopedCode.nil
  · exact ScopedCode.straight trivial hd hr Operand.inScope_unused

theorem ScopedCode.pushed {code : List Instruction} {r : Operand} (hr : r.InScope y)
    (hc : ScopedCode program X n code y) : ScopedCode program X n (pushed code r) y :=
  hc.append (ScopedCode.moved hr Operand.inScope_stack)

theorem ScopedCode.dropped {code : List Instruction} {r : Operand}
    (hc : ScopedCode program X n code y) : ScopedCode program X n (dropped code r) y := by
  refine hc.append ?_
  unfold dropCode
  split
  · exact fun _ hh hs => ScopedIn.bare hh.1 trivial hs
  · exact ScopedCode.nil

theorem ScopedCode.pinned {later : List Node} {code : List Instruction} {r : Operand}
    (hr : r.InScope y) (hc : ScopedCode program X n code y) :
    ScopedCode program X n (pinned later code r) y := by
  unfold YieldMachine.pinned
  split
  · exact ScopedCode.pushed hr hc
  · exact hc

/-! ## Jumps -/

theorem ScopedIn.jumpSucc {o : Operand}
    (hi : program.instruction? ip = some ⟨.jump, o, .unused, .unused⟩) (ho : o.InScope y)
    (hs : ScopedIn program X n (Program.jumpTarget ip o) y) :
    ScopedIn program X (n + 1) ip y := by
  refine ScopedIn.succ hi (Instruction.inScope_iff.2
    ⟨ho, Operand.inScope_unused, Operand.inScope_unused⟩) fun p hp => ?_
  cases List.mem_singleton.1 hp
  exact hs

theorem ScopedIn.jumpIfFalse {o r : Operand}
    (hi : program.instruction? ip = some ⟨.jumpIfFalse, o, r, .unused⟩) (ho : o.InScope y)
    (hr : r.InScope y) (hn : ScopedIn program X n (ip + 1) y)
    (ht : ScopedIn program X n (Program.jumpTarget ip o) y) : ScopedIn program X n ip y := by
  refine ScopedIn.step hi (Instruction.inScope_iff.2 ⟨ho, hr, Operand.inScope_unused⟩)
    fun p hp => ?_
  rcases List.mem_cons.1 hp with rfl | hp
  · exact hn
  · cases List.mem_singleton.1 hp
    exact ht

theorem ScopedCode.cond {cc tc ec : List Instruction} {r : Operand} (hr : r.InScope y)
    (hc : ScopedCode program X n cc y) (ht : ScopedCode program X n tc y)
    (he : ScopedCode program X n ec y) :
    ScopedCode program X n
      (cc ++ [⟨.jumpIfFalse, .jump (tc.length + 1 : Nat), r, .unused⟩] ++ tc ++
        [⟨.jump, .jump ec.length, .unused, .unused⟩] ++ ec) y := by
  intro base hh hs
  simp only [Program.holds_append, List.length_append, List.length_cons, List.length_nil,
    ← Nat.add_assoc, Nat.add_zero] at hh hs
  obtain ⟨⟨⟨⟨hcc, hjf, -⟩, htc⟩, hj, -⟩, hec⟩ := hh
  refine hc base hcc (ScopedIn.jumpIfFalse hjf (Operand.inScope_jump _) hr ?_ ?_)
  · refine ht _ htc (ScopedIn.pred (ScopedIn.jumpSucc hj (Operand.inScope_jump _) ?_))
    rw [Program.jumpTarget_jump]
    exact hs
  · rw [Program.jumpTarget_jump]
    refine he _ ?_ (hs.cast (by omega))
    rw [show base + cc.length + 1 + (tc.length + 1) = base + cc.length + 1 + tc.length + 1
      by omega]
    exact hec

/-- The number of steps bounds the number of passes: each goes back by one step. -/
theorem ScopedCode.loop {cc bc : List Instruction} {r nil : Operand} (hr : r.InScope y)
    (hnil : nil.InScope y) (hc : ∀ {k}, ScopedCode program X k cc y)
    (hb : ∀ {k}, ScopedCode program X k bc y) :
    ScopedCode program X n
      ([⟨.move, .stack, nil, .unused⟩] ++ cc ++
        [⟨.jumpIfFalse, .jump (bc.length + 2 : Nat), r, .unused⟩, .bare .pop] ++ bc ++
        [⟨.jump, .jump (-(cc.length + bc.length + 3 : Nat)), .unused, .unused⟩]) y := by
  intro base hh hs
  simp only [Program.holds_append, List.length_append, List.length_cons, List.length_nil,
    ← Nat.add_assoc, Nat.add_zero] at hh hs
  obtain ⟨⟨⟨⟨⟨hm, -⟩, hcc⟩, hjf, hpop, -⟩, hbc⟩, hj, -⟩ := hh
  have htop : ∀ k, k ≤ n → ScopedIn program X k (base + 1) y := by
    intro k
    induction k with
    | zero => exact fun _ => trivial
    | succ k ih =>
      intro hk
      refine hc _ hcc (ScopedIn.jumpIfFalse hjf (Operand.inScope_jump _) hr ?_ ?_)
      · refine ScopedIn.bare hpop trivial (hb _ hbc ?_)
        refine ScopedIn.jumpSucc hj (Operand.inScope_jump _) ?_
        rw [Program.jumpTarget_back (by omega)]
        exact (ih (by omega)).cast (by omega)
      · rw [Program.jumpTarget_jump]
        exact (hs.le hk).cast (by omega)
  exact ScopedIn.straight hm trivial (Instruction.inScope_iff.2
    ⟨Operand.inScope_stack, hnil, Operand.inScope_unused⟩) (htop n (Nat.le_refl n))

/-! ## Functions -/

/-- The body of a function has a scope of its own, inside the one that the function is made in. -/
theorem ScopedCode.function {bc : List Instruction} {r params size : Operand}
    (hp : params.InScope y) (hsize : size.InScope y)
    (hr : r.InScope (max params.address.toNat size.address.toNat :: y))
    (hb : ScopedCode program X n bc (max params.address.toNat size.address.toNat :: y)) :
    ScopedCode program X n
      ([⟨.jump, .jump (bc.length + 1 : Nat), .unused, .unused⟩] ++ bc ++
        [⟨.ret, .unused, r, .unused⟩,
          ⟨.makeFunction, ⟨.immediate, -(bc.length + 2 : Nat)⟩, params, size⟩]) y := by
  intro base hh hs
  simp only [Program.holds_append, List.length_append, List.length_cons, List.length_nil,
    ← Nat.add_assoc, Nat.add_zero] at hh hs
  obtain ⟨⟨⟨hj, -⟩, hbc⟩, hret, hmake, -⟩ := hh
  have hbody : ScopedIn program X n (base + 1)
      (max params.address.toNat size.address.toNat :: y) := by
    refine hb _ hbc (ScopedIn.step hret (Instruction.inScope_iff.2
      ⟨Operand.inScope_unused, hr, Operand.inScope_unused⟩) fun p hp => ?_)
    cases hp
  refine ScopedIn.pred (ScopedIn.jumpSucc hj (Operand.inScope_jump _) ?_)
  rw [Program.jumpTarget_jump,
    show base + 1 + (bc.length + 1) = base + 1 + bc.length + 1 by omega]
  refine ScopedIn.step hmake (Instruction.inScope_iff.2
    ⟨Operand.inScope_immediate _, hp, hsize⟩) fun p hmem => ?_
  rcases List.mem_cons.1 hmem with rfl | hmem
  · exact hs
  · cases List.mem_singleton.1 hmem
    show ScopedIn program X n (Program.jumpTarget _ (.jump (-(bc.length + 2 : Nat)))) _
    rw [Program.jumpTarget_back (by omega)]
    exact hbody.cast (by omega)

/-! ## For loops -/

theorem ScopedIn.spawn {a b : Operand}
    (hi : program.instruction? ip = some ⟨.spawn, a, b, .unused⟩) (ha : a.InScope y)
    (hb : b.InScope y) (hiter : ScopedIn program X n (ip + 1) y)
    (hcont : ScopedIn program X n (Program.jumpTarget ip a) y)
    (hdrop : ScopedIn program X n (Program.jumpTarget ip b) y) : ScopedIn program X n ip y := by
  refine ScopedIn.step hi (Instruction.inScope_iff.2 ⟨ha, hb, Operand.inScope_unused⟩)
    fun p hp => ?_
  rcases List.mem_cons.1 hp with rfl | hp
  · exact hiter
  · rcases List.mem_cons.1 hp with rfl | hp
    · exact hcont
    · cases List.mem_singleton.1 hp
      exact hdrop

theorem ScopedIn.resume {a b : Operand}
    (hi : program.instruction? ip = some ⟨.resume, a, b, .unused⟩) (ha : a.InScope y)
    (hb : b.InScope y) (hcont : ScopedIn program X n (ip + 1) y)
    (hdrop : ScopedIn program X n (Program.jumpTarget ip b) y) : ScopedIn program X n ip y := by
  refine ScopedIn.step hi (Instruction.inScope_iff.2 ⟨ha, hb, Operand.inScope_unused⟩)
    fun p hp => ?_
  rcases List.mem_cons.1 hp with rfl | hp
  · exact hcont
  · cases List.mem_singleton.1 hp
    exact hdrop

theorem ScopedIn.take {target : Operand}
    (hi : program.instruction? ip = some ⟨.move, target, .stack, .unused⟩)
    (ht : target.InScope y) (hs : ScopedIn program X n (ip + 1) y) : ScopedIn program X n ip y :=
  ScopedIn.straight hi trivial
    (Instruction.inScope_iff.2 ⟨ht, Operand.inScope_stack, Operand.inScope_unused⟩) hs

theorem spawnAll_scoped {rest : Nat} (its : List (Operand × List Instruction)) :
    ∀ {base : Nat}, (∀ it ∈ its, it.1.InScope y ∧ ScopedCode program X n it.2 y) →
      program.Holds base (spawnAll rest its) →
      ScopedIn program X n (base + (spawnAll rest its).length) y →
      ScopedIn program X n (base + (spawnAll rest its).length + rest) y →
      ScopedIn program X n base y := by
  induction its with
  | nil =>
    intro base _ _ hs _
    exact hs
  | cons it its ih =>
    obtain ⟨target, iterator⟩ := it
    intro base hall hh hs hexit
    obtain ⟨⟨ht, hp⟩, hall⟩ := List.forall_mem_cons.1 hall
    simp only [spawnAll, Program.Holds, Program.holds_append, List.length_append,
      List.length_cons, List.length_nil, ← Nat.add_assoc, Nat.add_zero] at hh hs hexit
    obtain ⟨hspawn, ⟨hit, hend, hmove, -⟩, htail⟩ := hh
    refine ScopedIn.spawn hspawn (Operand.inScope_jump _) (Operand.inScope_jump _) ?_ ?_ ?_
    · refine hp _ hit (ScopedIn.step hend (Instruction.inScope_iff.2
        ⟨Operand.inScope_unused, Operand.inScope_unused, Operand.inScope_unused⟩) fun p hp => ?_)
      cases hp
    · rw [Program.jumpTarget_jump,
        show base + 1 + (iterator.length + 1) = base + 1 + iterator.length + 1 by omega]
      exact ScopedIn.take hmove ht
        (ih hall htail (hs.cast (by omega)) (hexit.cast (by omega)))
    · rw [Program.jumpTarget_jump]
      exact hexit.cast (by omega)

theorem resumeAll_scoped (targets : List Operand) :
    ∀ {base k : Nat}, (∀ o ∈ targets, o.InScope y) → program.Holds base (resumeAll k targets) →
      ScopedIn program X n (base + (resumeAll k targets).length) y →
      ScopedIn program X n (base + (resumeAll k targets).length + 1) y →
      ScopedIn program X n base y := by
  induction targets with
  | nil =>
    intro base k _ _ hs _
    exact hs
  | cons target targets ih =>
    intro base k hall hh hs hexit
    obtain ⟨ht, hall⟩ := List.forall_mem_cons.1 hall
    simp only [resumeAll, Program.Holds, List.length_cons, ← Nat.add_assoc] at hh hs hexit
    obtain ⟨hresume, hmove, htail⟩ := hh
    have hlen := resumeAll_length (k + 1) targets
    refine ScopedIn.resume hresume (Operand.inScope_immediate _) (Operand.inScope_jump _) ?_ ?_
    · exact ScopedIn.take hmove ht
        (ih hall htail (hs.cast (by omega)) (hexit.cast (by omega)))
    · rw [Program.jumpTarget_jump]
      exact hexit.cast (by omega)

/-- Each pass through a loop takes the values of all producers and goes back by one step. -/
theorem ScopedCode.forLoop {nil : Operand} {targets : List Operand}
    {its : List (List Instruction)} {bc : List Instruction} (hnil : nil.InScope y)
    (ht : ∀ o ∈ targets, o.InScope y) (hi : ∀ it ∈ its, ScopedCode program X n it y)
    (hb : ∀ {k}, ScopedCode program X k bc y) :
    ScopedCode program X n (forCode nil targets its bc) y := by
  intro base hh hs
  rw [length_forCode (bc.length + 2 * targets.length + 2)] at hs
  obtain ⟨top, hl⟩ := hh.loop
  have htop := hl.top_eq
  have hR := resumeAll_length 0 targets
  have hexit : ∀ k, k ≤ n →
      ScopedIn program X k (top + bc.length + 2 * targets.length + 2) y :=
    fun k hk => ScopedIn.bare hl.closes trivial ((hs.le hk).cast (by omega))
  have hpass : ∀ k, k ≤ n → ScopedIn program X k top y := by
    intro k
    induction k with
    | zero => exact fun _ => trivial
    | succ k ih =>
      intro hk
      refine ScopedIn.bare hl.starts trivial (hb _ hl.body ?_)
      refine resumeAll_scoped targets ht hl.resumes ?_ ?_
      · rw [hR]
        refine ScopedIn.jumpSucc hl.back (Operand.inScope_jump _) ?_
        rw [Program.jumpTarget_back (by omega)]
        exact (ih (by omega)).cast (by omega)
      · exact (hexit (k + 1) hk).cast (by omega)
  refine ScopedIn.straight hl.init trivial (Instruction.inScope_iff.2
    ⟨Operand.inScope_stack, hnil, Operand.inScope_unused⟩)
    (ScopedIn.bare hl.opens trivial ?_)
  refine spawnAll_scoped (targets.zip its) ?_ hl.producers ?_ ?_
  · intro it hit
    obtain ⟨h₁, h₂⟩ := List.of_mem_zip (a := it.1) (b := it.2) hit
    exact ⟨ht _ h₁, hi _ h₂⟩
  · rw [← htop]
    exact hpass n (Nat.le_refl n)
  · exact (hexit n (Nat.le_refl n)).cast (by omega)

/-! ## Nodes -/

theorem ScopedCode.gather (k : Nat) (isLast : Bool) :
    ScopedCode program X n (gather (k + 1) isLast).toList y := by
  have hmake : ∀ count : Nat, ScopedCode program X n
      [⟨.makeArray, .stack, ⟨.immediate, count⟩, .unused⟩] y := fun count =>
    ScopedCode.straight trivial Operand.inScope_stack (Operand.inScope_immediate _)
      Operand.inScope_unused
  unfold YieldMachine.gather
  split
  · dsimp only
    split
    · exact (hmake _).append (ScopedCode.straight trivial Operand.inScope_stack
        Operand.inScope_stack Operand.inScope_stack)
    · exact hmake _
  · exact ScopedCode.nil

theorem Pool.inScope_variables {pool : Pool} {refs : List Ref} {targets : List Operand}
    (h : List.Forall₂ pool.Variable refs targets) (hr : ∀ target ∈ refs, target.Scoped y) :
    ∀ o ∈ targets, o.InScope y := by
  induction h with
  | nil => simp
  | cons hv _ ih =>
    obtain ⟨hr, hrest⟩ := List.forall_mem_cons.1 hr
    exact List.forall_mem_cons.2 ⟨hv.inScope hr, ih hrest⟩

mutual

/-- The code of a well-scoped tree keeps its scope. -/
theorem Code.scoped (node : Node) {n : Nat} {y : Scope} {dest r : Operand}
    {code : List Instruction} (h : Code program.pool dest node code r) (hs : node.Scoped y)
    (hd : dest.InScope y) : ScopedCode program X n code y := by
  have hstack : Operand.stack.InScope y := Operand.inScope_stack
  have hunused : Operand.unused.InScope y := Operand.inScope_unused
  cases node with
  | literal value | ref target =>
    rw [Code] at h
    rw [h.1]
    exact ScopedCode.nil
  | assign target value =>
    rw [Code] at h
    rw [Node.Scoped] at hs
    obtain ⟨hr, vc, vr, hv, rfl⟩ := h
    have hir := hr.inScope hs.1
    exact (Code.scoped value hv hs.2 hir).append
      (ScopedCode.moved (Code.inScope value hv hs.2 hir) hir)
  | unary op operand =>
    rw [Code] at h
    rw [Node.Scoped] at hs
    obtain ⟨rfl, vc, vr, hv, rfl⟩ := h
    refine (Code.scoped operand hv hs hstack).append ?_
    have hr := Code.inScope operand hv hs hstack
    cases op <;> exact ScopedCode.straight trivial hd hr hunused
  | binary left op right =>
    rw [Code] at h
    rw [Node.Scoped] at hs
    obtain ⟨rfl, lc, lr, rc, rr, hl, hr, rfl⟩ := h
    have hlr := Code.inScope left hl hs.1 hstack
    have hrr := Code.inScope right hr hs.2 hstack
    refine ((ScopedCode.pinned hlr (Code.scoped left hl hs.1 hstack)).append
      (Code.scoped right hr hs.2 hstack)).append ?_
    cases op <;> exact ScopedCode.straight trivial hd (inScope_pinnedAt hlr) hrr
  | index target place =>
    rw [Code] at h
    rw [Node.Scoped] at hs
    obtain ⟨rfl, lc, lr, rc, rr, hl, hr, rfl⟩ := h
    have hlr := Code.inScope target hl hs.1 hstack
    have hrr := Code.inScope place hr hs.2 hstack
    exact ((ScopedCode.pinned hlr (Code.scoped target hl hs.1 hstack)).append
      (Code.scoped place hr hs.2 hstack)).append
        (ScopedCode.straight trivial hd (inScope_pinnedAt hlr) hrr)
  | slice target start stop =>
    rw [Code] at h
    rw [Node.Scoped] at hs
    obtain ⟨rfl, tc, tr, ac, ar, bc, br, ht, ha, hb, rfl⟩ := h
    have htr := Code.inScope target ht hs.1 hstack
    have har := Code.inScope start ha hs.2.1 hstack
    have hbr := Code.inScope stop hb hs.2.2 hstack
    exact (((ScopedCode.pinned htr (Code.scoped target ht hs.1 hstack)).append
      (ScopedCode.pinned har (Code.scoped start ha hs.2.1 hstack))).append
      (Code.scoped stop hb hs.2.2 hstack)).append
        (ScopedCode.straight trivial (inScope_pinnedAt htr) (inScope_pinnedAt har) hbr)
  | len target =>
    rw [Code] at h
    rw [Node.Scoped] at hs
    obtain ⟨rfl, vc, vr, hv, rfl⟩ := h
    exact (Code.scoped target hv hs hstack).append
      (ScopedCode.straight trivial hd (Code.inScope target hv hs hstack) hunused)
  | array elements =>
    rw [Code] at h
    rw [Node.Scoped] at hs
    obtain ⟨rfl, h⟩ := h
    split at h
    · obtain ⟨ec, he, rfl⟩ := h
      exact (CodeAll.scoped elements he hs).append
        (ScopedCode.straight trivial hd (Operand.inScope_immediate _) hunused)
    · obtain ⟨ec, he, rfl⟩ := h
      exact (CodeChunks.scoped elements he hs).append (ScopedCode.moved hstack hd)
  | block nodes =>
    rw [Code] at h
    rw [Node.Scoped] at hs
    exact CodeBlock.scoped nodes h hs hd
  | cond condition thenBranch elseBranch =>
    rw [Code] at h
    rw [Node.Scoped] at hs
    obtain ⟨rfl, cc, cr, tc, tr, ec, er, hc, ht, he, rfl⟩ := h
    obtain ⟨hsc, hst, hse⟩ := hs
    exact ScopedCode.cond (Code.inScope condition hc hsc hstack)
      (Code.scoped condition hc hsc hstack)
      (ScopedCode.pushed (Code.inScope thenBranch ht hst hstack)
        (Code.scoped thenBranch ht hst hstack))
      (ScopedCode.pushed (CodeOption.inScope elseBranch he hse)
        (CodeOption.scoped elseBranch he hse))
  | loop condition body =>
    rw [Code] at h
    rw [Node.Scoped] at hs
    obtain ⟨rfl, nil, cc, cr, bc, br, hnil, hc, hb, rfl⟩ := h
    exact ScopedCode.loop (Code.inScope condition hc hs.1 hstack) hnil.inScope
      (Code.scoped condition hc hs.1 hstack)
      (ScopedCode.pushed (Code.inScope body hb hs.2 hstack) (Code.scoped body hb hs.2 hstack))
  | forEach refs iterators body =>
    rw [Code] at h
    rw [Node.Scoped] at hs
    obtain ⟨rfl, nil, targets, its, bc, br, hnil, -, ht, hi, hb, rfl⟩ := h
    obtain ⟨hsr, hsi, hsb⟩ := hs
    exact ScopedCode.forLoop hnil.inScope (Pool.inScope_variables ht hsr)
      (CodeIterators.scoped iterators hi hsi)
      (ScopedCode.pushed (Code.inScope body hb hsb hstack) (Code.scoped body hb hsb hstack))
  | yield value =>
    rw [Code] at h
    rw [Node.Scoped] at hs
    obtain ⟨-, vc, vr, hv, rfl⟩ := h
    exact (Code.scoped value hv hs hstack).append
      (ScopedCode.straight trivial hunused (Code.inScope value hv hs hstack) hunused)
  | function params frameSize body =>
    rw [Code] at h
    rw [Node.Scoped] at hs
    obtain ⟨rfl, bc, br, hb, rfl⟩ := h
    obtain ⟨hp, hf, hs⟩ := hs
    have hsize : max (params.toInt64.toInt).toNat ((slotCount params frameSize).toInt64.toInt).toNat
        = max params.toNat frameSize.toNat := by
      have hslots := toNat_slotCount params frameSize
      rw [UInt64.toNat_toInt_toInt64 hp, UInt64.toNat_toInt_toInt64 (by omega), hslots]
      omega
    rw [← hsize] at hs
    exact ScopedCode.function (Operand.inScope_immediate _) (Operand.inScope_immediate _)
      (Code.inScope body hb hs Operand.inScope_stack)
      (Code.scoped body hb hs Operand.inScope_stack)
  | call callee args =>
    rw [Code] at h
    rw [Node.Scoped] at hs
    obtain ⟨rfl, ac, fc, fr, ha, hf, rfl⟩ := h
    exact ((CodeAll.scoped args ha hs.1).append (Code.scoped callee hf hs.2 hstack)).append
      (ScopedCode.straight trivial (Operand.inScope_immediate _)
        (Code.inScope callee hf hs.2 hstack) hunused)
  | ret value =>
    rw [Code] at h
    rw [Node.Scoped] at hs
    obtain ⟨-, vc, vr, hv, rfl⟩ := h
    refine (Code.scoped value hv hs hstack).append fun base hh _ => ?_
    refine ScopedIn.step hh.1 (Instruction.inScope_iff.2
      ⟨hunused, Code.inScope value hv hs hstack, hunused⟩) fun p hp => ?_
    cases hp
  | primitive op args =>
    rw [Code] at h
    rw [Node.Scoped] at hs
    obtain ⟨-, vc, vr, hv, h⟩ := h
    have hvr := CodeFirst.inScope args hv hs
    split at h
    · obtain ⟨-, rfl⟩ := h
      refine (CodeFirst.scoped args hv hs).append fun base hh _ => ?_
      refine ScopedIn.step hh.1 (Instruction.inScope_iff.2 ⟨hunused, hvr, hunused⟩)
        fun p hp => ?_
      cases hp
    · next hop =>
      obtain ⟨rfl, rfl⟩ := h
      refine (CodeFirst.scoped args hv hs).append ?_
      cases op with
      | exit => exact absurd rfl hop
      | _ => exact ScopedCode.straight trivial hd hvr hunused

theorem CodeAll.scoped (nodes : List Node) {n : Nat} {y : Scope} {code : List Instruction}
    (h : CodeAll program.pool nodes code) (hs : Node.ScopedAll y nodes) :
    ScopedCode program X n code y := by
  cases nodes with
  | nil =>
    rw [CodeAll] at h
    rw [h]
    exact ScopedCode.nil
  | cons node nodes =>
    rw [CodeAll] at h
    rw [Node.ScopedAll] at hs
    obtain ⟨vc, vr, rest, hv, hrest, rfl⟩ := h
    exact (ScopedCode.pushed (Code.inScope node hv hs.1 Operand.inScope_stack)
      (Code.scoped node hv hs.1 Operand.inScope_stack)).append (CodeAll.scoped nodes hrest hs.2)

theorem CodeChunks.scoped (nodes : List Node) {n k : Nat} {y : Scope} {code : List Instruction}
    (h : CodeChunks program.pool k nodes code) (hs : Node.ScopedAll y nodes) :
    ScopedCode program X n code y := by
  cases nodes with
  | nil =>
    rw [CodeChunks] at h
    rw [h]
    exact ScopedCode.nil
  | cons node nodes =>
    rw [CodeChunks] at h
    rw [Node.ScopedAll] at hs
    obtain ⟨vc, vr, rest, hv, hrest, rfl⟩ := h
    exact ((ScopedCode.pushed (Code.inScope node hv hs.1 Operand.inScope_stack)
      (Code.scoped node hv hs.1 Operand.inScope_stack)).append (ScopedCode.gather _ _)).append
        (CodeChunks.scoped nodes hrest hs.2)

theorem CodeBlock.scoped (nodes : List Node) {n : Nat} {y : Scope} {dest r : Operand}
    {code : List Instruction} (h : CodeBlock program.pool dest nodes code r)
    (hs : Node.ScopedAll y nodes) (hd : dest.InScope y) : ScopedCode program X n code y := by
  match nodes with
  | [] =>
    rw [CodeBlock] at h
    rw [h.1]
    exact ScopedCode.nil
  | [last] =>
    rw [CodeBlock] at h
    rw [Node.ScopedAll] at hs
    exact Code.scoped last h hs.1 hd
  | node :: next :: nodes =>
    rw [CodeBlock] at h
    · rw [Node.ScopedAll] at hs
      obtain ⟨vc, vr, rest, hv, hrest, rfl⟩ := h
      exact (ScopedCode.dropped (Code.scoped node hv hs.1 Operand.inScope_stack)).append
        (CodeBlock.scoped (next :: nodes) hrest hs.2 hd)
    · intro h
      cases h

theorem CodeOption.scoped (node : Option Node) {n : Nat} {y : Scope} {r : Operand}
    {code : List Instruction} (h : CodeOption program.pool node code r)
    (hs : Node.ScopedOption y node) : ScopedCode program X n code y := by
  cases node with
  | none =>
    rw [CodeOption] at h
    rw [h.1]
    exact ScopedCode.nil
  | some node =>
    rw [CodeOption] at h
    rw [Node.ScopedOption] at hs
    exact Code.scoped node h hs Operand.inScope_stack

theorem CodeFirst.scoped (nodes : List Node) {n : Nat} {y : Scope} {r : Operand}
    {code : List Instruction} (h : CodeFirst program.pool nodes code r)
    (hs : Node.ScopedAll y nodes) : ScopedCode program X n code y := by
  cases nodes with
  | nil =>
    rw [CodeFirst] at h
    rw [h.1]
    exact ScopedCode.nil
  | cons node nodes =>
    rw [CodeFirst] at h
    rw [Node.ScopedAll] at hs
    exact Code.scoped node h hs.1 Operand.inScope_stack

theorem CodeIterators.scoped (nodes : List Node) {y : Scope} {its : List (List Instruction)}
    (h : CodeIterators program.pool nodes its) (hs : Node.ScopedAll y nodes) {n : Nat} :
    ∀ it ∈ its, ScopedCode program X n it y := by
  cases nodes with
  | nil =>
    rw [CodeIterators] at h
    simp [h]
  | cons node nodes =>
    rw [CodeIterators] at h
    rw [Node.ScopedAll] at hs
    obtain ⟨vc, vr, rest, hv, hrest, rfl⟩ := h
    exact List.forall_mem_cons.2
      ⟨ScopedCode.dropped (Code.scoped node hv hs.1 Operand.inScope_stack),
        CodeIterators.scoped nodes hrest hs.2⟩

end

/-! ## Statements -/

/-- A compiled statement that is well scoped is so from its start. -/
theorem Program.Gained.scopes {p q : Program} {node : Node} {code : List Instruction} {r : Operand}
    (h : p.Gained q node code r) (hs : node.Scoped []) :
    q.Scopes q.Outside p.code.size [] := by
  intro n
  refine ScopedCode.pushed (Code.inScope node h.lowered hs Operand.inScope_stack)
    (Code.scoped node h.lowered hs Operand.inScope_stack) _ h.holds ?_
  cases n with
  | zero => exact trivial
  | succ n => exact .inl ⟨h.size.symm, rfl⟩

end YieldMachine
