import Mathlib.Logic.Relation
import YieldMachine.Proofs.Layout.Compiled
import YieldMachine.Proofs.Machine.Inversion
import YieldMachine.Proofs.Run.Balance

/-!
# Paths stay in their regions

Inside one context the code leads from a place to the next along an edge: to the place
behind an instruction, or to the target of a jump. A context that waits for a producer goes
on along an edge too. In code that keeps to its regions every path along edges stays in the
regions it started in, so control enters and leaves them only where an instruction hands
over to another context or to another activation.

    step_continues     a step goes along an edge, or crosses to somewhere else
    compile_confined   the code of a statement keeps to its regions
-/

namespace YieldMachine

/-! ## Definitions -/

/-- Inside one context the code leads from `ip` to `t`. -/
def Program.Edge (program : Program) (ip t : Nat) : Prop :=
  ∃ i, program.instruction? ip = some i ∧
    (i.fallsThrough ∧ t = ip + 1 ∨ ∃ o ∈ i.jumps, t = Program.jumpTarget ip o)

/-- An instruction that may hand over to another activation or back to a consumer. -/
def Instruction.Crosses (i : Instruction) : Prop :=
  i.opcode ∈ [Opcode.call, .ret, .yield, .endIter]

/-- The context that was active goes on where `R` says. Or it waits for a producer, and goes on
where `R` says when it gets a value and when the producer is dropped; the producer starts right
behind the instruction, or goes on where it was parked. -/
inductive Machine.Continues (R : Nat → Nat → Prop) (m m' : Machine) : Prop where
  | active (consumers : m'.consumers = m.consumers) (place : R m.active.ip m'.active.ip)
  | waiting {c : Context} {p : Pending} (consumers : m'.consumers = m.consumers.push c)
      (pending : c.pending = some p) (place : R m.active.ip c.ip) (leave : R m.active.ip p.onDrop)
      (producer : m'.active.ip = m.active.ip + 1 ∨
        ∃ k d, m.active.slot? k = some (some d) ∧ m'.active.ip = d.ip)

/-! ## Steps -/

section

variable {program : Program} {limits : Limits} {m m' : Machine} {i : Instruction} {ip t : Nat}

theorem Machine.Continues.imp {R S : Nat → Nat → Prop} (h : m.Continues R m')
    (hrs : ∀ t, R m.active.ip t → S m.active.ip t) : m.Continues S m' := by
  cases h with
  | active hcs hplace => exact .active hcs (hrs _ hplace)
  | waiting hcs hp hplace hleave hproducer =>
    exact .waiting hcs hp (hrs _ hplace) (hrs _ hleave) hproducer

/-- The opcodes that change contexts in a way of their own can be told by their effects. -/
theorem Opcode.eq_of_effect (op : Opcode) {op' : Opcode} (h : op'.effect = op.effect)
    (hop : op ∈ [Opcode.call, .ret, .iterBegin, .spawn, .endIter, .resume, .yield, .iterEnd]) :
    op' = op := by
  simp only [List.mem_cons, List.not_mem_nil, or_false] at hop
  rcases hop with rfl | rfl | rfl | rfl | rfl | rfl | rfl | rfl <;>
    cases op' <;> first | rfl | cases h

theorem Instruction.Lands.edge (h : i.Lands ip t) (hl : i.effect.IsLocal) :
    i.fallsThrough ∧ t = ip + 1 ∨ ∃ o ∈ i.jumps, t = Program.jumpTarget ip o := by
  obtain ⟨opcode, a, b, c⟩ := i
  cases opcode with
  | jump => exact .inr ⟨a, List.mem_singleton.2 rfl, h⟩
  | jumpIfFalse =>
    rcases h with h | h
    · exact .inl ⟨rfl, h⟩
    · exact .inr ⟨a, List.mem_singleton.2 rfl, h⟩
  | ret | iterBegin | spawn | endIter | resume | yield | iterEnd | exit => exact hl.elim
  | _ => exact .inl ⟨rfl, h⟩

/-- Whatever the code, a step goes along an edge unless it crosses. -/
theorem Machine.step_continues (hi : program.instruction? m.active.ip = some i)
    (hstep : m.step program limits = .running m') :
    i.Crosses ∨ m.Continues program.Edge m' := by
  have htaken := m.step_taken program limits
  rw [hstep] at htaken
  cases htaken with
  | @running i' _ hi' hmove =>
    cases hi.symm.trans hi'
    have hcross : ∀ op : Opcode, op ∈ [Opcode.call, .ret, .yield, .endIter] →
        i.opcode.effect = op.effect → i.Crosses := by
      intro op hop he
      have := Opcode.eq_of_effect op he (by simp only [List.mem_cons] at hop ⊢; tauto)
      rw [Instruction.Crosses, this]
      exact hop
    cases hmove with
    | stay hl hlands => exact .inr (.active rfl ⟨i, hi, hlands.edge hl⟩)
    | enter he => exact .inl (hcross .call (by simp) he)
    | ret he => exact .inl (hcross .ret (by simp) he)
    | yield he => exact .inl (hcross .yield (by simp) he)
    | endIteration he => exact .inl (hcross .endIter (by simp) he)
    | openGroup he =>
      have hop := Opcode.eq_of_effect .iterBegin he (by simp)
      exact .inr (.active rfl ⟨i, hi, .inl ⟨by rw [Instruction.fallsThrough, hop], rfl⟩⟩)
    | @closeGroup c cs group g h co j j' he hg =>
      have hop := Opcode.eq_of_effect .iterEnd he (by simp)
      refine .inr (.active rfl ⟨i, hi, .inl ⟨by rw [Instruction.fallsThrough, hop], ?_⟩⟩)
      simp only [Context.closeGroup_eq]
      rfl
    | @spawn c cs group g h co j j' he hg =>
      have hop := Opcode.eq_of_effect .spawn he (by simp)
      have hjumps : i.jumps = [i.a, i.b] := by rw [Instruction.jumps, hop]
      refine .inr (.waiting rfl rfl ⟨i, hi, .inr ⟨i.a, ?_, rfl⟩⟩ ⟨i, hi, .inr ⟨i.b, ?_, rfl⟩⟩
        (.inl rfl))
      · rw [hjumps]
        exact List.mem_cons_self
      · rw [hjumps]
        exact List.mem_cons_of_mem _ List.mem_cons_self
    | @resume c producer cs g h co j j' he hs =>
      have hop := Opcode.eq_of_effect .resume he (by simp)
      refine .inr (.waiting rfl rfl ⟨i, hi, .inl ⟨?_, ?_⟩⟩ ⟨i, hi, .inr ⟨i.b, ?_, rfl⟩⟩
        (.inr ⟨_, _, hs, rfl⟩))
      · rw [Instruction.fallsThrough, hop]
      · rw [Context.setSlot_eq]
        rfl
      · rw [Instruction.jumps, hop]
        exact List.mem_singleton.2 rfl

end

/-! ## Paths -/

namespace Program.Layout

variable {program : Program} {lo hi ip t : Nat} {sites : List Site}

/-- An edge leads to a place in the same regions, at most to the end of the code. -/
theorem edge (h : program.Layout .none lo hi sites) (hlo : lo ≤ ip) (hhi : ip < hi)
    (he : program.Edge ip t) : lo ≤ t ∧ t ≤ hi ∧ Together sites ip t := by
  obtain ⟨i, hi', ⟨hfalls, rfl⟩ | ⟨o, ho, rfl⟩⟩ := he
  · exact ⟨by omega, hhi, h.falls ip i hlo hhi hi' hfalls⟩
  · obtain ⟨t, ⟨-, rfl⟩, hin | ⟨hexit, -⟩⟩ := h.leads ip i hlo hhi hi' o ho
    · exact hin
    · exact hexit.elim

/-- A path leads to places in the regions that it starts in. -/
theorem path (h : program.Layout .none lo hi sites) (hend : program.code.size = hi) (hlo : lo ≤ ip)
    (hhi : ip ≤ hi) (hpath : Relation.ReflTransGen program.Edge ip t) :
    lo ≤ t ∧ t ≤ hi ∧ Together sites ip t := by
  induction hpath with
  | refl => exact ⟨hlo, hhi, .refl sites ip⟩
  | @tail u t _ hedge ih =>
    obtain ⟨hulo, -, hu⟩ := ih
    have hlt : u < hi := by
      obtain ⟨i, hi', -⟩ := hedge
      rw [← hend]
      exact Program.instruction?_lt hi'
    obtain ⟨htlo, hthi, ht⟩ := h.edge hulo hlt hedge
    exact ⟨htlo, hthi, hu.trans ht⟩

end Program.Layout

/-! ## Statements -/

/-- The code of a statement has one region for each literal and each iterator in it, and keeps
to them. Paths along edges stay in the regions they start in; and in whatever the program
grows to, a step in this code goes along such an edge, unless it calls, returns, yields or
ends an iterator. -/
theorem Program.compile_confined {program program' : Program} {journal journal' : Journal}
    {node : Node} {entry : Nat}
    (h : program.compile journal node = ⟨.ok entry, program', journal'⟩) :
    ∃ sites : List Site, sites.map Site.enclosure = node.enclosures ∧
      program'.Layout .none entry program'.code.size sites ∧
      (∀ ip t, entry ≤ ip → ip ≤ program'.code.size →
        Relation.ReflTransGen program'.Edge ip t →
        entry ≤ t ∧ t ≤ program'.code.size ∧ Together sites ip t) ∧
      ∀ (q : Program) (limits : Limits) (m m' : Machine) (i : Instruction), program'.Within q →
        entry ≤ m.active.ip → m.active.ip < program'.code.size →
        q.instruction? m.active.ip = some i → m.step q limits = .running m' →
        i.Crosses ∨ m.Continues (Together sites) m' := by
  obtain ⟨sites, hmap, hlayout⟩ := compile_laid h
  refine ⟨sites, hmap, hlayout, ?_, ?_⟩
  · intro ip t hlo hhi hpath
    exact hlayout.path rfl hlo hhi hpath
  · intro q limits m m' i hwithin hlo hhi hi hstep
    refine (Machine.step_continues hi hstep).imp_right ?_
    intro hcontinues
    refine hcontinues.imp ?_
    intro t hedge
    -- the program that grew has the same instruction there
    obtain ⟨j, hj⟩ := hlayout.decodes _ hlo hhi
    obtain ⟨j', hj', hedge⟩ := hedge
    cases hj'.symm.trans (hwithin.instruction? hj)
    exact (hlayout.edge hlo hhi ⟨j, hj, hedge⟩).2.2

/-- A function with a loop has two regions, and opening the loop stays in the first of them. -/
theorem Program.compile_confined_oneRound :
    ∃ (program' : Program) (journal' : Journal) (sites : List Site) (m m' : Machine)
      (i : Instruction),
      Program.empty.compile default .oneRound = ⟨.ok 0, program', journal'⟩ ∧
      sites.map Site.enclosure = Node.oneRound.enclosures ∧ sites.length = 2 ∧
      program'.Layout .none 0 program'.code.size sites ∧
      Relation.ReflTransGen program'.Edge m.active.ip m'.active.ip ∧
      Together sites m.active.ip m'.active.ip ∧
      program'.instruction? m.active.ip = some i ∧ ¬ i.Crosses ∧
      m.step program' {} = .running m' ∧ m.Continues (Together sites) m' := by
  let compiled := Program.empty.compile default .oneRound
  let start := (Machine.fresh default default).restart 0
  have hcompiled : compiled = ⟨.ok 0, compiled.program, compiled.journal⟩ :=
    Compiled.eq_of_entry (by decide +kernel)
  obtain ⟨sites, hmap, hlayout, hpath, hstep⟩ := Program.compile_confined hcompiled
  -- the fourth step of a run reaches the opening of the loop
  let m := (Machine.run compiled.program {} 4 start).machine
  let m' := (Machine.run compiled.program {} 5 start).machine
  have hrun : m.step compiled.program {} = .running m' :=
    Machine.run_one.symm.trans (Machine.run_machine (n := 4) (by decide +kernel))
  have hi : compiled.program.instruction? m.active.ip = some _ :=
    (Option.some_get! _ (by decide +kernel)).symm
  have hcrosses : ¬ Instruction.Crosses (compiled.program.instruction? m.active.ip).get! := by
    unfold Instruction.Crosses
    decide +kernel
  obtain hcontinues := (hstep _ _ m m' _ (.refl _) (Nat.zero_le _) (by decide +kernel) hi
    hrun).resolve_left hcrosses
  have hedge : Relation.ReflTransGen compiled.program.Edge m.active.ip m'.active.ip := by
    refine .single ⟨_, hi, .inl ⟨?_, ?_⟩⟩
    · decide +kernel
    · decide +kernel
  refine ⟨_, _, sites, m, m', _, hcompiled, hmap, ?_, hlayout, hedge, ?_, hi, hcrosses, hrun,
    hcontinues⟩
  · have hlength := congrArg List.length hmap
    rwa [List.length_map] at hlength
  · exact (hpath _ _ (Nat.zero_le _) (by decide +kernel) hedge).2.2

end YieldMachine
