import YieldMachine.Proofs.Flow.Shape

/-!
# Compiled code is safe

The code of a node leads from any shape to the same shape with the node's value: what
stands behind it being safe, so is the code. For loops the proof goes by the number of
steps, since each pass takes one more.

    Passes program X n code s s'   the code leads from the shape s to the shape s'
-/

namespace YieldMachine

variable {program : Program} {X : Nat → Shape → Prop} {n base ip : Nat} {s s' s'' : Shape}

/-! ## Operands -/

theorem Action.at?_natCast {α : Type} (items : Array α) (k : Nat) :
    Action.at? items k = items[k]? := by
  unfold Action.at?
  rw [if_pos (by omega), Int.toNat_natCast]

theorem Pool.Constant.readable {o : Operand} {v : Value} (h : program.pool.Constant o v)
    (hv : v.key?.isSome) : program.Readable o := by
  obtain ⟨k, rfl, hk⟩ := h
  exact ⟨v, (Action.at?_natCast _ k).trans hk, hv⟩

theorem Pool.Constant.cells {pool : Pool} {o : Operand} {v : Value} (h : pool.Constant o v) :
    o.cells = 0 := by
  obtain ⟨k, rfl, -⟩ := h
  rfl

theorem Pool.Variable.writable {ref : Ref} {o : Operand} (h : program.pool.Variable ref o) :
    program.Writable o := by
  cases ref with
  | own slot =>
    cases h
    exact trivial
  | outer slot =>
    cases h
    exact trivial
  | global name =>
    obtain ⟨k, rfl, hk⟩ := h
    exact ⟨name, (Action.at?_natCast _ k).trans hk⟩

theorem Pool.Variable.cells {pool : Pool} {ref : Ref} {o : Operand} (h : pool.Variable ref o) :
    o.cells = 0 := by
  cases ref with
  | own slot =>
    cases h
    rfl
  | outer slot =>
    cases h
    rfl
  | global name =>
    obtain ⟨k, rfl, -⟩ := h
    rfl

theorem Pool.writable_variables {refs : List Ref} {targets : List Operand}
    (h : List.Forall₂ program.pool.Variable refs targets) :
    ∀ o ∈ targets, program.Writable o ∧ o.cells = 0 := by
  induction h with
  | nil => simp
  | cons hv _ ih => exact List.forall_mem_cons.2 ⟨⟨hv.writable, hv.cells⟩, ih⟩

theorem CodeIterators.length_eq {pool : Pool} (nodes : List Node)
    {its : List (List Instruction)} (h : CodeIterators pool nodes its) :
    nodes.length = its.length := by
  induction nodes generalizing its with
  | nil =>
    rw [CodeIterators] at h
    rw [h]
    rfl
  | cons node nodes ih =>
    rw [CodeIterators] at h
    obtain ⟨vc, vr, rest, -, hrest, rfl⟩ := h
    rw [List.length_cons, List.length_cons, ih hrest]

theorem Program.Writable.readable {o : Operand} (h : program.Writable o) :
    program.Readable o := by
  unfold Program.Writable at h
  unfold Program.Readable
  split at h
  · next hm =>
    rw [hm]
    exact h
  · exact h.elim
  · exact h.elim
  · next h₁ h₂ _ =>
    split
    · next hm => exact absurd hm h₁
    · next hm => exact absurd hm h₂
    · exact trivial

theorem Program.writable_stack : program.Writable .stack := trivial

theorem Program.readable_stack : program.Readable .stack := trivial

theorem Program.readable_pinnedAt {later : List Node} {r : Operand} (h : program.Readable r) :
    program.Readable (pinnedAt later r) := by
  unfold pinnedAt
  split
  · exact trivial
  · exact h

mutual

/-- The value of compiled code can be read where it is said to be. -/
theorem Code.readable (node : Node) {dest r : Operand} {code : List Instruction}
    (h : Code program.pool dest node code r) (hd : program.Writable dest) :
    program.Readable r := by
  cases node with
  | literal value =>
    rw [Code] at h
    exact h.2.readable value.key?_value
  | ref target =>
    rw [Code] at h
    exact h.2.writable.readable
  | assign target value =>
    rw [Code] at h
    exact h.1.writable.readable
  | block nodes =>
    rw [Code] at h
    exact CodeBlock.readable nodes h hd
  | yield value | ret value =>
    rw [Code] at h
    exact h.1.readable rfl
  | primitive op args =>
    rw [Code] at h
    obtain ⟨-, vc, vr, -, h⟩ := h
    split at h
    · exact h.1.readable rfl
    · rw [h.1]
      exact hd.readable
  | unary op operand | binary left op right | index target place | len target
  | array elements =>
    rw [Code] at h
    rw [h.1]
    exact hd.readable
  | slice target start stop | cond condition thenBranch elseBranch | loop condition body
  | forEach refs iterators body | function params frameSize body | call callee args =>
    rw [Code] at h
    rw [h.1]
    exact trivial

theorem CodeBlock.readable (nodes : List Node) {dest r : Operand} {code : List Instruction}
    (h : CodeBlock program.pool dest nodes code r) (hd : program.Writable dest) :
    program.Readable r := by
  match nodes with
  | [] =>
    rw [CodeBlock] at h
    exact h.2.readable rfl
  | [last] =>
    rw [CodeBlock] at h
    exact Code.readable last h hd
  | node :: next :: nodes =>
    rw [CodeBlock] at h
    · obtain ⟨vc, vr, rest, -, h, -⟩ := h
      exact CodeBlock.readable (next :: nodes) h hd
    · intro h
      cases h

end

theorem CodeOption.readable (node : Option Node) {r : Operand} {code : List Instruction}
    (h : CodeOption program.pool node code r) : program.Readable r := by
  cases node with
  | none =>
    rw [CodeOption] at h
    exact h.2.readable rfl
  | some node =>
    rw [CodeOption] at h
    exact Code.readable node h trivial

theorem CodeFirst.readable (nodes : List Node) {r : Operand} {code : List Instruction}
    (h : CodeFirst program.pool nodes code r) : program.Readable r := by
  cases nodes with
  | nil =>
    rw [CodeFirst] at h
    rw [h.2]
    exact trivial
  | cons node nodes =>
    rw [CodeFirst] at h
    exact Code.readable node h trivial

/-! ## Single instructions -/

theorem Shape.up_up (s : Shape) (a b : Nat) : (s.up a).up b = s.up (a + b) := by
  simp [Shape.up, Nat.add_assoc]

theorem Shape.up_after (s : Shape) (i : Instruction) : (s.up i.takes).after i = s.up i.gives := by
  simp [Shape.up, Shape.after]

/-- Does an instruction only take and give, and go on behind itself? -/
def Instruction.IsPlain (i : Instruction) : Prop :=
  match i.effect with
  | .unary _ | .binary _ | .pop | .slice | .makeArray | .call | .yield | .readLine | .write _ =>
    True
  | _ => False

theorem Instruction.IsPlain.admits {i : Instruction} (h : i.IsPlain) (hs : i.takes ≤ s.height) :
    i.Admits s := by
  refine ⟨hs, ?_⟩
  unfold Instruction.IsPlain at h
  split at h
  case h_10 => exact h.elim
  all_goals
    next he =>
      rw [he]
      exact trivial

theorem Instruction.IsPlain.successors {i : Instruction} (h : i.IsPlain) :
    i.successors ip s = [(ip + 1, s.after i)] := by
  unfold Instruction.IsPlain at h
  unfold Instruction.successors Instruction.starts Instruction.continues
  split at h
  case h_10 => exact h.elim
  all_goals
    next he =>
      simp only [he]
      rfl

theorem SafeIn.plain {i : Instruction} (hi : program.instruction? ip = some i) (hp : i.IsPlain)
    (hl : i.Legal program ip) (hs : SafeIn program X n (ip + 1) (s.up i.gives)) :
    SafeIn program X n ip (s.up i.takes) := by
  refine SafeIn.step hi hl (hp.admits (by simp [Shape.up])) ?_
  rw [hp.successors, Shape.up_after]
  intro p hp
  cases List.mem_singleton.1 hp
  exact hs

theorem UnaryOp.effect_opcode (op : UnaryOp) : op.opcode.effect = .unary op.apply := by
  cases op <;> rfl

theorem BinaryOp.effect_opcode (op : BinaryOp) : op.opcode.effect = .binary op.apply := by
  cases op <;> rfl

/-! ## Pieces of code -/

/-- Code that leads from one shape to another: what stands behind it being safe, so is
the code. -/
def Passes (program : Program) (X : Nat → Shape → Prop) (n : Nat) (code : List Instruction)
    (s s' : Shape) : Prop :=
  ∀ base, program.Holds base code → SafeIn program X n (base + code.length) s' →
    SafeIn program X n base s

theorem Passes.nil : Passes program X n [] s s :=
  fun _ _ h => h

theorem Passes.append {xs ys : List Instruction} (hx : Passes program X n xs s s')
    (hy : Passes program X n ys s' s'') : Passes program X n (xs ++ ys) s s'' := by
  intro base hh hs
  rw [Program.holds_append] at hh
  rw [List.length_append, ← Nat.add_assoc] at hs
  exact hx base hh.1 (hy _ hh.2 hs)

theorem Passes.plain {i : Instruction} (hp : i.IsPlain) (hl : ∀ ip, i.Legal program ip) :
    Passes program X n [i] (s.up i.takes) (s.up i.gives) :=
  fun base hh hs => SafeIn.plain hh.1 hp (hl base) hs

theorem Passes.move {r dest : Operand} (hr : program.Readable r) (hd : program.Writable dest) :
    Passes program X n [⟨.move, dest, r, .unused⟩] (s.up r.cells) (s.up dest.cells) :=
  Passes.plain trivial fun _ => ⟨hr, hd⟩

theorem Passes.moved {r dest : Operand} (hr : program.Readable r) (hd : program.Writable dest) :
    Passes program X n (moved r dest) (s.up r.cells) (s.up dest.cells) := by
  unfold YieldMachine.moved materialize
  split
  · next h =>
    rw [h]
    exact Passes.nil
  · exact Passes.move hr hd

theorem Passes.pushed {code : List Instruction} {r : Operand} (hr : program.Readable r)
    (hc : Passes program X n code s (s.up r.cells)) :
    Passes program X n (pushed code r) s (s.up 1) :=
  hc.append (Passes.moved hr Program.writable_stack)

theorem Passes.dropped {code : List Instruction} {r : Operand}
    (hc : Passes program X n code s (s.up r.cells)) :
    Passes program X n (dropped code r) s s := by
  refine hc.append ?_
  unfold dropCode Operand.cells
  split
  · exact Passes.plain (i := .bare .pop) trivial fun _ => trivial
  · exact Passes.nil

theorem Passes.pinned {later : List Node} {code : List Instruction} {r : Operand}
    (hr : program.Readable r) (hc : Passes program X n code s (s.up r.cells)) :
    Passes program X n (pinned later code r) s (s.up (pinnedAt later r).cells) := by
  unfold YieldMachine.pinned pinnedAt
  split
  · exact Passes.pushed hr hc
  · exact hc

theorem Program.Holds.le_size {code : List Instruction} (h : program.Holds base code)
    (hc : code ≠ []) : base + code.length ≤ program.code.size := by
  induction code generalizing base with
  | nil => exact absurd rfl hc
  | cons i code ih =>
    have hlt := Program.instruction?_lt h.1
    cases code with
    | nil => exact hlt
    | cons j code =>
      have := ih h.2 (by simp)
      simp only [List.length_cons] at this ⊢
      omega

theorem Program.jumpTarget_jump (d : Nat) :
    Program.jumpTarget ip (.jump d) = ip + 1 + d := by
  simp only [Program.jumpTarget, Operand.jump]
  omega

theorem Program.jumpTarget_back {d : Nat} (h : d ≤ ip + 1) :
    Program.jumpTarget ip (.jump (-(d : Int))) = ip + 1 - d := by
  simp only [Program.jumpTarget, Operand.jump]
  omega

theorem Program.inRange_jump {d : Nat} (h : ip + 1 + d ≤ program.code.size) :
    program.InRange ip (.jump d) := by
  simp only [Program.InRange, Operand.jump]
  omega

theorem Program.inRange_back {d : Nat} (h : d ≤ ip + 1) (hs : ip + 1 ≤ program.code.size) :
    program.InRange ip (.jump (-(d : Int))) := by
  simp only [Program.InRange, Operand.jump]
  omega

/-! ## Jumps -/

theorem SafeIn.jumpSucc {o : Operand}
    (hi : program.instruction? ip = some ⟨.jump, o, .unused, .unused⟩)
    (hr : program.InRange ip o) (hs : SafeIn program X n (Program.jumpTarget ip o) s) :
    SafeIn program X (n + 1) ip s := by
  refine SafeIn.succ hi hr ⟨Nat.zero_le _, trivial⟩ fun p hp => ?_
  cases List.mem_singleton.1 hp
  exact hs

theorem SafeIn.jumpIfFalse {o r : Operand}
    (hi : program.instruction? ip = some ⟨.jumpIfFalse, o, r, .unused⟩)
    (hd : program.Readable r) (hr : program.InRange ip o)
    (hn : SafeIn program X n (ip + 1) s) (ht : SafeIn program X n (Program.jumpTarget ip o) s) :
    SafeIn program X n ip (s.up r.cells) := by
  refine SafeIn.step hi ⟨hd, hr⟩ ⟨Nat.le_add_left _ _, trivial⟩ ?_
  have hafter : (s.up r.cells).after ⟨.jumpIfFalse, o, r, .unused⟩ = s :=
    Shape.up_after s ⟨.jumpIfFalse, o, r, .unused⟩
  show ∀ p ∈ [(ip + 1, (s.up r.cells).after _), (Program.jumpTarget ip o, _)], _
  rw [hafter]
  intro p hp
  rcases List.mem_cons.1 hp with rfl | hp
  · exact hn
  · cases List.mem_singleton.1 hp
    exact ht

theorem SafeIn.cast {ip' : Nat} (h : SafeIn program X n ip s) (he : ip = ip') :
    SafeIn program X n ip' s :=
  he ▸ h

theorem Passes.cond {cc tc ec : List Instruction} {r : Operand} (hr : program.Readable r)
    (hc : Passes program X n cc s (s.up r.cells)) (ht : Passes program X n tc s s')
    (he : Passes program X n ec s s') :
    Passes program X n
      (cc ++ [⟨.jumpIfFalse, .jump (tc.length + 1 : Nat), r, .unused⟩] ++ tc ++
        [⟨.jump, .jump ec.length, .unused, .unused⟩] ++ ec) s s' := by
  intro base hh hs
  have hsize := hh.le_size (by simp)
  simp only [Program.holds_append, List.length_append, List.length_cons, List.length_nil,
    ← Nat.add_assoc, Nat.add_zero] at hh hs hsize
  obtain ⟨⟨⟨⟨hcc, hjf, -⟩, htc⟩, hj, -⟩, hec⟩ := hh
  refine hc base hcc (SafeIn.jumpIfFalse hjf hr (Program.inRange_jump (by omega)) ?_ ?_)
  · refine ht _ htc (SafeIn.pred (SafeIn.jumpSucc hj (Program.inRange_jump (by omega)) ?_))
    rw [Program.jumpTarget_jump]
    exact hs
  · rw [Program.jumpTarget_jump]
    refine he _ ?_ ?_
    · rw [show base + cc.length + 1 + (tc.length + 1) = base + cc.length + 1 + tc.length + 1
        by omega]
      exact hec
    · exact hs.cast (by omega)

/-- The number of steps bounds the number of passes: each goes back by one step. -/
theorem Passes.loop {cc bc : List Instruction} {r nil : Operand} (hr : program.Readable r)
    (hnil : program.Readable nil) (hcells : nil.cells = 0)
    (hc : ∀ {k s}, Passes program X k cc s (s.up r.cells))
    (hb : ∀ {k s}, Passes program X k bc s (s.up 1)) :
    Passes program X n
      ([⟨.move, .stack, nil, .unused⟩] ++ cc ++
        [⟨.jumpIfFalse, .jump (bc.length + 2 : Nat), r, .unused⟩, .bare .pop] ++ bc ++
        [⟨.jump, .jump (-(cc.length + bc.length + 3 : Nat)), .unused, .unused⟩]) s (s.up 1) := by
  intro base hh hs
  have hsize := hh.le_size (by simp)
  simp only [Program.holds_append, List.length_append, List.length_cons, List.length_nil,
    ← Nat.add_assoc, Nat.add_zero] at hh hs hsize
  obtain ⟨⟨⟨⟨⟨hm, -⟩, hcc⟩, hjf, hpop, -⟩, hbc⟩, hj, -⟩ := hh
  have htop : ∀ k, k ≤ n → SafeIn program X k (base + 1) (s.up 1) := by
    intro k
    induction k with
    | zero => exact fun _ => trivial
    | succ k ih =>
      intro hk
      refine hc _ hcc (SafeIn.jumpIfFalse hjf hr (Program.inRange_jump (by omega)) ?_ ?_)
      · refine SafeIn.plain (i := .bare .pop) hpop trivial trivial (hb _ hbc ?_)
        refine SafeIn.jumpSucc hj (Program.inRange_back (by omega) (by omega)) ?_
        rw [Program.jumpTarget_back (by omega)]
        exact (ih (by omega)).cast (by omega)
      · rw [Program.jumpTarget_jump]
        exact (hs.le hk).cast (by omega)
  have hmove : Passes program X n [⟨.move, .stack, nil, .unused⟩] s (s.up 1) := by
    have h := Passes.move (s := s) (n := n) (X := X) hnil Program.writable_stack
    rwa [hcells] at h
  exact hmove base ⟨hm, trivial⟩ (htop n (Nat.le_refl n))

/-! ## Functions -/

theorem Passes.function {bc : List Instruction} {r params size : Operand}
    (hr : program.Readable r) (hb : Passes program X n bc .body (Shape.body.up r.cells)) :
    Passes program X n
      ([⟨.jump, .jump (bc.length + 1 : Nat), .unused, .unused⟩] ++ bc ++
        [⟨.ret, .unused, r, .unused⟩,
          ⟨.makeFunction, ⟨.immediate, -(bc.length + 2 : Nat)⟩, params, size⟩]) s (s.up 1) := by
  intro base hh hs
  have hsize := hh.le_size (by simp)
  simp only [Program.holds_append, List.length_append, List.length_cons, List.length_nil,
    ← Nat.add_assoc, Nat.add_zero] at hh hs hsize
  obtain ⟨⟨⟨hj, -⟩, hbc⟩, hret, hmake, -⟩ := hh
  have hbody : SafeIn program X n (base + 1) .body := by
    refine hb _ hbc (SafeIn.step hret hr ⟨Nat.le_add_left _ _, trivial⟩ fun p hp => ?_)
    cases hp
  refine SafeIn.pred (SafeIn.jumpSucc hj (Program.inRange_jump (by omega)) ?_)
  rw [Program.jumpTarget_jump,
    show base + 1 + (bc.length + 1) = base + 1 + bc.length + 1 by omega]
  refine SafeIn.step hmake (Program.inRange_back (by omega) (by omega))
    ⟨Nat.zero_le _, trivial⟩ fun p hp => ?_
  rcases List.mem_cons.1 hp with rfl | hp
  · show SafeIn program X n (Program.jumpTarget _ (.jump (-(bc.length + 2 : Nat)))) .body
    rw [Program.jumpTarget_back (by omega)]
    exact hbody.cast (by omega)
  · cases List.mem_singleton.1 hp
    exact hs

/-! ## For loops -/

theorem SafeIn.spawn {a b : Operand} {k : Nat} {rest : List (Option Nat)}
    (hi : program.instruction? ip = some ⟨.spawn, a, b, .unused⟩)
    (ha : program.InRange ip a) (hb : program.InRange ip b)
    (hiter : SafeIn program X n (ip + 1) .iterator)
    (hcont : SafeIn program X n (Program.jumpTarget ip a)
      ((s.up 1).within (some (k + 1) :: rest)))
    (hdrop : SafeIn program X n (Program.jumpTarget ip b) (s.within (none :: rest))) :
    SafeIn program X n ip (s.within (some k :: rest)) := by
  refine SafeIn.step hi ⟨ha, hb⟩ ⟨Nat.zero_le _, k, rest, rfl⟩ fun p hp => ?_
  rcases List.mem_cons.1 hp with rfl | hp
  · exact hiter
  · rcases List.mem_cons.1 hp with rfl | hp
    · exact hcont
    · cases List.mem_singleton.1 hp
      exact hdrop

theorem SafeIn.resume {a b : Operand} {k : Nat} {rest : List (Option Nat)}
    (hi : program.instruction? ip = some ⟨.resume, a, b, .unused⟩) (ha : a.address.toNat < k)
    (hb : program.InRange ip b)
    (hcont : SafeIn program X n (ip + 1) ((s.up 1).within (some k :: rest)))
    (hdrop : SafeIn program X n (Program.jumpTarget ip b) (s.within (none :: rest))) :
    SafeIn program X n ip (s.within (some k :: rest)) := by
  refine SafeIn.step hi hb ⟨Nat.zero_le _, k, rest, rfl, ha⟩ fun p hp => ?_
  rcases List.mem_cons.1 hp with rfl | hp
  · exact hcont
  · cases List.mem_singleton.1 hp
    exact hdrop

/-- The value that a producer handed over goes into a variable. -/
theorem SafeIn.take {target : Operand} {ls : List (Option Nat)}
    (hi : program.instruction? ip = some ⟨.move, target, .stack, .unused⟩)
    (hw : program.Writable target) (hc : target.cells = 0)
    (hs : SafeIn program X n (ip + 1) (s.within ls)) :
    SafeIn program X n ip ((s.up 1).within ls) := by
  refine SafeIn.plain (s := s.within ls) hi trivial ⟨Program.readable_stack, hw⟩ ?_
  show SafeIn program X n (ip + 1) ((s.within ls).up target.cells)
  rwa [hc]

theorem spawnAll_safe {rest : Nat} {ls : List (Option Nat)}
    (its : List (Operand × List Instruction)) :
    ∀ {base k : Nat}, (∀ it ∈ its, program.Writable it.1 ∧ it.1.cells = 0 ∧
        Passes program X n it.2 .iterator .iterator) →
      program.Holds base (spawnAll rest its) →
      base + (spawnAll rest its).length + rest ≤ program.code.size →
      SafeIn program X n (base + (spawnAll rest its).length)
        (s.within (some (k + its.length) :: ls)) →
      SafeIn program X n (base + (spawnAll rest its).length + rest) (s.within (none :: ls)) →
      SafeIn program X n base (s.within (some k :: ls)) := by
  induction its with
  | nil =>
    intro base k _ _ _ hs _
    exact hs
  | cons it its ih =>
    obtain ⟨target, iterator⟩ := it
    intro base k hall hh hsize hs hexit
    obtain ⟨⟨hw, hc, hp⟩, hall⟩ := List.forall_mem_cons.1 hall
    simp only [spawnAll, Program.Holds, Program.holds_append, List.length_append,
      List.length_cons, List.length_nil, ← Nat.add_assoc, Nat.add_zero] at hh hsize hs hexit
    obtain ⟨hspawn, ⟨hit, hend, hmove, -⟩, htail⟩ := hh
    refine SafeIn.spawn hspawn (Program.inRange_jump (by omega))
      (Program.inRange_jump (by omega)) ?_ ?_ ?_
    · refine hp _ hit (SafeIn.step hend trivial ⟨Nat.zero_le _, rfl⟩ fun p hp => ?_)
      cases hp
    · rw [Program.jumpTarget_jump,
        show base + 1 + (iterator.length + 1) = base + 1 + iterator.length + 1 by omega]
      rw [Nat.add_right_comm k] at hs
      exact SafeIn.take hmove hw hc
        (ih hall htail (by omega) (hs.cast (by omega)) (hexit.cast (by omega)))
    · rw [Program.jumpTarget_jump]
      exact hexit.cast (by omega)

theorem resumeAll_safe {k₀ : Nat} {ls : List (Option Nat)} (targets : List Operand) :
    ∀ {base k : Nat}, (∀ o ∈ targets, program.Writable o ∧ o.cells = 0) →
      k + targets.length ≤ k₀ →
      program.Holds base (resumeAll k targets) →
      base + (resumeAll k targets).length + 1 ≤ program.code.size →
      SafeIn program X n (base + (resumeAll k targets).length) (s.within (some k₀ :: ls)) →
      SafeIn program X n (base + (resumeAll k targets).length + 1) (s.within (none :: ls)) →
      SafeIn program X n base (s.within (some k₀ :: ls)) := by
  induction targets with
  | nil =>
    intro base k _ _ _ _ hs _
    exact hs
  | cons target targets ih =>
    intro base k hall hk hh hsize hs hexit
    obtain ⟨⟨hw, hc⟩, hall⟩ := List.forall_mem_cons.1 hall
    simp only [resumeAll, Program.Holds, List.length_cons, ← Nat.add_assoc] at hh hsize hs hexit hk
    obtain ⟨hresume, hmove, htail⟩ := hh
    have hlen := resumeAll_length (k + 1) targets
    refine SafeIn.resume hresume (by simp only [Int.toNat_natCast]; omega)
      (Program.inRange_jump (by omega)) ?_ ?_
    · exact SafeIn.take hmove hw hc
        (ih hall (by omega) htail (by omega) (hs.cast (by omega)) (hexit.cast (by omega)))
    · rw [Program.jumpTarget_jump]
      exact hexit.cast (by omega)

/-- Each pass through a loop takes the values of all producers and goes back by one step. -/
theorem Passes.forLoop {nil : Operand} {targets : List Operand} {its : List (List Instruction)}
    {bc : List Instruction} (hnil : program.Readable nil) (hcells : nil.cells = 0)
    (hlen : targets.length = its.length)
    (ht : ∀ o ∈ targets, program.Writable o ∧ o.cells = 0)
    (hi : ∀ {k}, ∀ it ∈ its, Passes program X k it .iterator .iterator)
    (hb : ∀ {k s}, Passes program X k bc s (s.up 1)) :
    Passes program X n (forCode nil targets its bc) s (s.up 1) := by
  intro base hh hs
  have hsize := hh.le_size (by simp [forCode])
  rw [length_forCode (bc.length + 2 * targets.length + 2)] at hs hsize
  obtain ⟨top, hl⟩ := hh.loop
  have htop := hl.top_eq
  have hR := resumeAll_length 0 targets
  have hexit : ∀ k, k ≤ n → SafeIn program X k (top + bc.length + 2 * targets.length + 2)
      ((s.up 1).within (none :: s.loops)) := by
    intro k hk
    refine SafeIn.step hl.closes trivial ⟨Nat.zero_le _, s.loops, rfl⟩ fun p hp => ?_
    cases List.mem_singleton.1 hp
    exact (hs.le hk).cast (by omega)
  have hpass : ∀ k, k ≤ n → SafeIn program X k top
      ((s.up 1).within (some targets.length :: s.loops)) := by
    intro k
    induction k with
    | zero => exact fun _ => trivial
    | succ k ih =>
      intro hk
      refine SafeIn.plain (i := .bare .pop) (s := s.within (some targets.length :: s.loops))
        hl.starts trivial trivial (hb _ hl.body ?_)
      refine resumeAll_safe (s := s.up 1) targets ht (Nat.le_of_eq (Nat.zero_add _)) hl.resumes
        (by omega) ?_ ?_
      · rw [hR]
        refine SafeIn.jumpSucc hl.back (Program.inRange_back (by omega) (by omega)) ?_
        rw [Program.jumpTarget_back (by omega)]
        exact (ih (by omega)).cast (by omega)
      · exact (hexit (k + 1) hk).cast (by omega)
  have hmove : Passes program X n [⟨.move, .stack, nil, .unused⟩] s (s.up 1) := by
    have h := Passes.move (s := s) (n := n) (X := X) hnil Program.writable_stack
    rwa [hcells] at h
  refine hmove base ⟨hl.init, trivial⟩ (SafeIn.step hl.opens trivial ⟨Nat.zero_le _, trivial⟩ ?_)
  intro p hp
  cases List.mem_singleton.1 hp
  have hzip : (targets.zip its).length = targets.length := by
    rw [List.length_zip, hlen, Nat.min_self]
  show SafeIn program X n (base + 2) ((s.up 1).within (some 0 :: s.loops))
  refine spawnAll_safe (targets.zip its) ?_ hl.producers (by omega) ?_ ?_
  · intro it hit
    obtain ⟨h₁, h₂⟩ := List.of_mem_zip (a := it.1) (b := it.2) hit
    exact ⟨(ht _ h₁).1, (ht _ h₁).2, hi _ h₂⟩
  · rw [← htop, hzip, Nat.zero_add]
    exact hpass n (Nat.le_refl n)
  · exact (hexit n (Nat.le_refl n)).cast (by omega)

/-! ## Nodes -/

/-- How many values stand on the stack behind `k` elements of an array that is built in
chunks: what is gathered so far, and what is not gathered yet. -/
def heldAt (k : Nat) : Nat :=
  (if chunkLength ≤ k then 1 else 0) + k % chunkLength

theorem Passes.gather (k : Nat) (isLast : Bool) :
    Passes program X n (gather (k + 1) isLast).toList (s.up (heldAt k + 1))
      (s.up (if isLast then 1 else heldAt (k + 1))) := by
  have hmake : ∀ count : Nat, ∀ {s : Shape}, Passes program X n
      [⟨.makeArray, .stack, ⟨.immediate, count⟩, .unused⟩] (s.up count) (s.up 1) := by
    intro count s
    exact Passes.plain (i := ⟨.makeArray, .stack, ⟨.immediate, count⟩, .unused⟩) trivial
      fun _ => ⟨Int.natCast_nonneg _, trivial⟩
  have hjoin : Passes program X n [⟨.add, .stack, .stack, .stack⟩] (s.up 2) (s.up 1) :=
    Passes.plain (i := ⟨.add, .stack, .stack, .stack⟩) trivial fun _ => ⟨trivial, trivial, trivial⟩
  have hk : heldAt k + 1 = (if chunkLength < k + 1 then 1 else 0) +
      (if (k + 1) % chunkLength = 0 then chunkLength else (k + 1) % chunkLength) := by
    unfold heldAt
    split <;> split <;> split <;> simp only [chunkLength] at * <;> omega
  rw [hk]
  unfold YieldMachine.gather
  split
  · next hg =>
    have hto : (if isLast then 1 else heldAt (k + 1)) = 1 := by
      cases isLast with
      | true => rfl
      | false =>
        simp only [Bool.false_eq_true, or_false] at hg
        simp only [Bool.false_eq_true, if_false, heldAt, hg]
        rw [if_pos]
        have := Nat.dvd_of_mod_eq_zero hg
        exact Nat.le_of_dvd (Nat.succ_pos k) this
    rw [hto]
    dsimp only
    split
    · have := hmake (if (k + 1) % chunkLength = 0 then chunkLength else (k + 1) % chunkLength)
        (s := s.up 1)
      rw [Shape.up_up, Shape.up_up] at this
      exact this.append hjoin
    · rw [Nat.zero_add]
      exact hmake _
  · next hg =>
    have hto : (if isLast then 1 else heldAt (k + 1)) =
        (if chunkLength < k + 1 then 1 else 0) + (k + 1) % chunkLength := by
      cases isLast with
      | true => exact absurd (Or.inr rfl) hg
      | false =>
        simp only [Bool.false_eq_true, or_false] at hg
        simp only [Bool.false_eq_true, if_false, heldAt]
        have : chunkLength ≠ k + 1 := by
          intro h
          rw [← h, Nat.mod_self] at hg
          exact hg rfl
        split <;> split <;> omega
    rw [hto, if_neg (fun h => hg (Or.inl h))]
    exact Passes.nil

mutual

/-- The code of a node leads to its value. -/
theorem Code.passes (node : Node) {n : Nat} {s : Shape} {dest r : Operand}
    {code : List Instruction} (h : Code program.pool dest node code r)
    (hd : program.Writable dest) : Passes program X n code s (s.up r.cells) := by
  cases node with
  | literal value =>
    rw [Code] at h
    obtain ⟨rfl, hr⟩ := h
    rw [hr.cells]
    exact Passes.nil
  | ref target =>
    rw [Code] at h
    obtain ⟨rfl, hr⟩ := h
    rw [hr.cells]
    exact Passes.nil
  | assign target value =>
    rw [Code] at h
    obtain ⟨hr, vc, vr, hv, rfl⟩ := h
    exact (Code.passes value hv hr.writable).append
      (Passes.moved (Code.readable value hv hr.writable) hr.writable)
  | unary op operand =>
    rw [Code] at h
    obtain ⟨rfl, vc, vr, hv, rfl⟩ := h
    refine (Code.passes operand hv trivial).append ?_
    have hr := Code.readable operand hv trivial
    cases op <;> exact Passes.plain trivial fun _ => ⟨hr, hd⟩
  | binary left op right =>
    rw [Code] at h
    obtain ⟨rfl, lc, lr, rc, rr, hl, hr, rfl⟩ := h
    have hlr := Code.readable left hl trivial
    refine ((Passes.pinned hlr (Code.passes left hl trivial)).append
      (Code.passes right hr trivial)).append ?_
    rw [Shape.up_up]
    have hp : program.Readable (pinnedAt [right] lr) := Program.readable_pinnedAt hlr
    have hrr := Code.readable right hr trivial
    cases op <;> exact Passes.plain trivial fun _ => ⟨hp, hrr, hd⟩
  | index target place =>
    rw [Code] at h
    obtain ⟨rfl, lc, lr, rc, rr, hl, hr, rfl⟩ := h
    have hlr := Code.readable target hl trivial
    refine ((Passes.pinned hlr (Code.passes target hl trivial)).append
      (Code.passes place hr trivial)).append ?_
    rw [Shape.up_up]
    have hp : program.Readable (pinnedAt [place] lr) := Program.readable_pinnedAt hlr
    have hrr := Code.readable place hr trivial
    exact Passes.plain (i := ⟨.index, r, pinnedAt [place] lr, rr⟩) trivial
      fun _ => ⟨hp, hrr, hd⟩
  | slice target start stop =>
    rw [Code] at h
    obtain ⟨rfl, tc, tr, ac, ar, bc, br, ht, ha, hb, rfl⟩ := h
    have htr := Code.readable target ht trivial
    have har := Code.readable start ha trivial
    refine (((Passes.pinned htr (Code.passes target ht trivial)).append
      (Passes.pinned har (Code.passes start ha trivial))).append
      (Code.passes stop hb trivial)).append ?_
    rw [Shape.up_up, Shape.up_up, ← Nat.add_assoc]
    have htp : program.Readable (pinnedAt [start, stop] tr) := Program.readable_pinnedAt htr
    have hap : program.Readable (pinnedAt [stop] ar) := Program.readable_pinnedAt har
    have hbr := Code.readable stop hb trivial
    exact Passes.plain
      (i := ⟨.slice, pinnedAt [start, stop] tr, pinnedAt [stop] ar, br⟩) trivial
      fun _ => ⟨htp, hap, hbr⟩
  | len target =>
    rw [Code] at h
    obtain ⟨rfl, vc, vr, hv, rfl⟩ := h
    exact (Code.passes target hv trivial).append
      (Passes.plain (i := ⟨.len, r, vr, .unused⟩) trivial
        fun _ => ⟨Code.readable target hv trivial, hd⟩)
  | array elements =>
    rw [Code] at h
    obtain ⟨rfl, h⟩ := h
    split at h
    · obtain ⟨ec, he, rfl⟩ := h
      exact (CodeAll.passes elements he).append
        (Passes.plain (i := ⟨.makeArray, r, ⟨.immediate, elements.length⟩, .unused⟩) trivial
          fun _ => ⟨Int.natCast_nonneg _, hd⟩)
    · next hlen =>
      obtain ⟨ec, he, rfl⟩ := h
      have hne : elements ≠ [] := by
        intro h
        simp [h] at hlen
      exact (CodeChunks.passes elements hne he).append (Passes.moved trivial hd)
  | block nodes =>
    rw [Code] at h
    exact CodeBlock.passes nodes h hd
  | cond condition thenBranch elseBranch =>
    rw [Code] at h
    obtain ⟨rfl, cc, cr, tc, tr, ec, er, hc, ht, he, rfl⟩ := h
    exact Passes.cond (Code.readable condition hc trivial) (Code.passes condition hc trivial)
      (Passes.pushed (Code.readable thenBranch ht trivial) (Code.passes thenBranch ht trivial))
      (Passes.pushed (CodeOption.readable elseBranch he) (CodeOption.passes elseBranch he))
  | loop condition body =>
    rw [Code] at h
    obtain ⟨rfl, nil, cc, cr, bc, br, hnil, hc, hb, rfl⟩ := h
    exact Passes.loop (Code.readable condition hc trivial) (hnil.readable rfl) hnil.cells
      (Code.passes condition hc trivial)
      (Passes.pushed (Code.readable body hb trivial) (Code.passes body hb trivial))
  | forEach refs iterators body =>
    rw [Code] at h
    obtain ⟨rfl, nil, targets, its, bc, br, hnil, hlen, ht, hi, hb, rfl⟩ := h
    have hits : iterators.length = its.length := CodeIterators.length_eq iterators hi
    refine Passes.forLoop (hnil.readable rfl) hnil.cells ?_ ?_ (CodeIterators.passes iterators hi)
      (Passes.pushed (Code.readable body hb trivial) (Code.passes body hb trivial))
    · rw [← ht.length_eq, hlen, hits]
    · exact Pool.writable_variables ht
  | yield value =>
    rw [Code] at h
    obtain ⟨hr, vc, vr, hv, rfl⟩ := h
    rw [hr.cells]
    exact (Code.passes value hv trivial).append
      (Passes.plain (i := ⟨.yield, .unused, vr, .unused⟩) trivial
        fun _ => Code.readable value hv trivial)
  | function params frameSize body =>
    rw [Code] at h
    obtain ⟨rfl, bc, br, hb, rfl⟩ := h
    exact Passes.function (Code.readable body hb trivial) (Code.passes body hb trivial)
  | call callee args =>
    rw [Code] at h
    obtain ⟨rfl, ac, fc, fr, ha, hf, rfl⟩ := h
    refine ((CodeAll.passes args ha).append (Code.passes callee hf trivial)).append ?_
    rw [Shape.up_up, Nat.add_comm]
    exact Passes.plain (i := ⟨.call, ⟨.immediate, args.length⟩, fr, .unused⟩) trivial
      fun _ => Code.readable callee hf trivial
  | ret value =>
    rw [Code] at h
    obtain ⟨hr, vc, vr, hv, rfl⟩ := h
    refine (Code.passes value hv trivial).append fun base hh _ => ?_
    refine SafeIn.step hh.1 (Code.readable value hv trivial)
      ⟨Nat.le_add_left _ _, trivial⟩ fun p hp => ?_
    cases hp
  | primitive op args =>
    rw [Code] at h
    obtain ⟨hargs, vc, vr, hv, h⟩ := h
    have hvr := CodeFirst.readable args hv
    split at h
    · obtain ⟨hr, rfl⟩ := h
      refine (CodeFirst.passes args hv).append fun base hh _ => ?_
      refine SafeIn.step hh.1 hvr ⟨Nat.le_add_left _ _, trivial⟩ fun p hp => ?_
      cases hp
    · next hop =>
      obtain ⟨rfl, rfl⟩ := h
      refine (CodeFirst.passes args hv).append ?_
      cases op with
      | exit => exact absurd rfl hop
      | readLine =>
        obtain rfl := List.length_eq_zero_iff.1 hargs
        rw [CodeFirst] at hv
        rw [hv.2]
        exact Passes.plain trivial fun _ => hd
      | _ => exact Passes.plain trivial fun _ => ⟨hvr, hd⟩

theorem CodeAll.passes (nodes : List Node) {n : Nat} {s : Shape} {code : List Instruction}
    (h : CodeAll program.pool nodes code) : Passes program X n code s (s.up nodes.length) := by
  cases nodes with
  | nil =>
    rw [CodeAll] at h
    rw [h]
    exact Passes.nil
  | cons node nodes =>
    rw [CodeAll] at h
    obtain ⟨vc, vr, rest, hv, hrest, rfl⟩ := h
    have hs : s.up (node :: nodes).length = (s.up 1).up nodes.length := by
      rw [Shape.up_up, Nat.add_comm 1, List.length_cons]
    rw [hs]
    exact (Passes.pushed (Code.readable node hv trivial) (Code.passes node hv trivial)).append
      (CodeAll.passes nodes hrest)

theorem CodeChunks.passes (nodes : List Node) {n k : Nat} {s : Shape} {code : List Instruction}
    (hne : nodes ≠ []) (h : CodeChunks program.pool k nodes code) :
    Passes program X n code (s.up (heldAt k)) (s.up 1) := by
  cases nodes with
  | nil => exact absurd rfl hne
  | cons node nodes =>
    rw [CodeChunks] at h
    obtain ⟨vc, vr, rest, hv, hrest, rfl⟩ := h
    have hpush : Passes program X n (pushed vc vr) (s.up (heldAt k)) ((s.up (heldAt k)).up 1) :=
      Passes.pushed (Code.readable node hv trivial) (Code.passes node hv trivial)
    rw [Shape.up_up] at hpush
    have hgather := hpush.append (Passes.gather k nodes.isEmpty)
    cases nodes with
    | nil =>
      rw [CodeChunks] at hrest
      rw [hrest, List.append_nil]
      exact hgather
    | cons next nodes => exact hgather.append (CodeChunks.passes (next :: nodes) (by simp) hrest)

theorem CodeBlock.passes (nodes : List Node) {n : Nat} {s : Shape} {dest r : Operand}
    {code : List Instruction} (h : CodeBlock program.pool dest nodes code r)
    (hd : program.Writable dest) : Passes program X n code s (s.up r.cells) := by
  match nodes with
  | [] =>
    rw [CodeBlock] at h
    rw [h.1, h.2.cells]
    exact Passes.nil
  | [last] =>
    rw [CodeBlock] at h
    exact Code.passes last h hd
  | node :: next :: nodes =>
    rw [CodeBlock] at h
    · obtain ⟨vc, vr, rest, hv, hrest, rfl⟩ := h
      exact (Passes.dropped (Code.passes node hv trivial)).append
        (CodeBlock.passes (next :: nodes) hrest hd)
    · intro h
      cases h

theorem CodeOption.passes (node : Option Node) {n : Nat} {s : Shape} {r : Operand}
    {code : List Instruction} (h : CodeOption program.pool node code r) :
    Passes program X n code s (s.up r.cells) := by
  cases node with
  | none =>
    rw [CodeOption] at h
    rw [h.1, h.2.cells]
    exact Passes.nil
  | some node =>
    rw [CodeOption] at h
    exact Code.passes node h trivial

theorem CodeFirst.passes (nodes : List Node) {n : Nat} {s : Shape} {r : Operand}
    {code : List Instruction} (h : CodeFirst program.pool nodes code r) :
    Passes program X n code s (s.up r.cells) := by
  cases nodes with
  | nil =>
    rw [CodeFirst] at h
    rw [h.1, h.2]
    exact Passes.nil
  | cons node nodes =>
    rw [CodeFirst] at h
    exact Code.passes node h trivial

theorem CodeIterators.passes (nodes : List Node) {its : List (List Instruction)}
    (h : CodeIterators program.pool nodes its) {n : Nat} :
    ∀ it ∈ its, Passes program X n it .iterator .iterator := by
  cases nodes with
  | nil =>
    rw [CodeIterators] at h
    simp [h]
  | cons node nodes =>
    rw [CodeIterators] at h
    obtain ⟨vc, vr, rest, hv, hrest, rfl⟩ := h
    exact List.forall_mem_cons.2 ⟨Passes.dropped (Code.passes node hv trivial),
      CodeIterators.passes nodes hrest⟩

end

/-! ## Statements -/

/-- A compiled statement is safe from its start, and leaves one value. -/
theorem Program.Gained.safe {p q : Program} {node : Node} {code : List Instruction} {r : Operand}
    (h : p.Gained q node code r) : Safe q q.Ends p.code.size .statement := by
  intro n
  refine Passes.pushed (Code.readable node h.lowered trivial)
    (Code.passes node h.lowered trivial) _ h.holds ?_
  exact Safe.of_exit ⟨h.size.symm, rfl⟩ n

end YieldMachine
