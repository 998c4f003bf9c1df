import YieldMachine.Proofs.Compile.Ending
import YieldMachine.Proofs.Flow.Region

/-!
# Stretches of code

A context comes to a stretch of code that leaves one value. On its way through it the
context may call functions, run loops and be parked if it is a producer. All of this rests
on what the context found, and in its own activation it stays in the stretch, until that
has come to its end with one value more on the stack.

    Amid.step     a step keeps the context on its way
    Amid.inside   in its own activation it is in the stretch, or has come to its end
-/

namespace YieldMachine

variable {program : Program} {limits : Limits} {F : Func → Prop} {i : Instruction}
  {m m' : Machine} {seat : Seat} {c₀ c c' : Context} {lo stop : Nat}

/-! ## Definitions -/

/-- The code from `lo` to `stop` leaves one value, and does not end in a yield. -/
structure Program.Valued (program : Program) (lo stop : Nat) : Prop where
  safe : ∀ home, Safe (program.clip lo stop) (Arrives stop) lo ⟨home, 0, []⟩
  last : ∃ i, program.instruction? (stop - 1) = some i ∧ i.opcode ≠ .yield

/-- All that a context has, as what it does next rests on it. -/
def Context.floor (c : Context) : Floor :=
  ⟨c.calls.toList, c.stack.toList, c.frames, c.loops.toList⟩

/-- The activation of a context has `h` values on the stack, and the loops `ls`. -/
structure Context.Based (c₀ : Context) (h : Nat) (ls : List (Option Nat)) : Prop where
  stack : c₀.stack.size = (inward c₀.calls).head?.elim 0 CallRecord.stackBase + h
  loops : c₀.loops.size = (inward c₀.calls).head?.elim 0 CallRecord.loopDepth + ls.length

/-- A context that was `c₀` is on its way through the code from there to `stop`. -/
structure Context.Amid (c : Context) (program : Program) (c₀ : Context) (stop : Nat) : Prop where
  rests : c.RestsOn c₀.floor
  stands : ∃ (home : Home) (h : Nat) (ls : List (Option Nat)), c₀.Based h ls ∧
    (c.Poised (program.within c₀.ip stop c₀.calls.size h ls) home ∨
      c.Awaiting (program.within c₀.ip stop c₀.calls.size h ls) home)

/-! ## The code of a value -/

theorem Program.Holds.getElem? {code : List Instruction} {base k : Nat}
    (h : program.Holds base code) (hk : code[k]? = some i) :
    program.instruction? (base + k) = some i := by
  induction code generalizing base k with
  | nil => cases hk
  | cons j code ih =>
    cases k with
    | zero =>
      cases hk
      exact h.1
    | succ k =>
      rw [show base + (k + 1) = base + 1 + k by omega]
      exact ih h.2 hk

/-- The code of a node, with its value put on the stack. -/
theorem Code.valued {node : Node} {code : List Instruction} {r : Operand}
    (h : Code program.pool .stack node code r) (hh : program.Holds lo (pushed code r)) :
    program.Valued lo (lo + (pushed code r).length) := by
  constructor
  case safe =>
    intro home n
    have h' : Code (program.clip lo (lo + (pushed code r).length)).pool .stack node code r := h
    exact Passes.pushed (Code.readable node h' trivial) (Code.passes node h' trivial) _
      (hh.clip (Nat.le_refl _) (Nat.le_refl _)) (Safe.of_exit ⟨rfl, rfl, rfl⟩ n)
  case last =>
    obtain ⟨i, hi, hop⟩ := Settled.pushed (Code.settled node h)
    rw [List.getLast?_eq_getElem?] at hi
    obtain ⟨hlt, -⟩ := List.getElem?_eq_some_iff.1 hi
    refine ⟨i, ?_, hop⟩
    rw [← hh.getElem? hi]
    congr 1
    omega

namespace Context

/-! ## Where the stretch begins -/

theorem restsOn_floor (c : Context) : c.RestsOn c.floor := by
  have hlen : c.floor.calls.length = c.calls.size := Array.length_toList
  refine ⟨List.prefix_rfl, List.prefix_rfl, List.prefix_rfl, List.prefix_rfl, fun _ => rfl, ?_, ?_⟩
  · intro r hr
    rw [hlen, List.drop_of_length_le (Nat.le_of_eq Array.length_toList)] at hr
    cases hr
  · intro r hr
    rw [hlen, Array.getElem?_eq_none (Nat.le_refl _)] at hr
    cases hr

/-- The active context comes to a stretch. -/
theorem Amid.enter (hs : m.Sound program) (hv : program.Valued m.active.ip stop) :
    m.active.Amid program m.active stop := by
  refine ⟨restsOn_floor _, ?_⟩
  obtain ⟨ls, hst, hfills⟩ := hs.active.stacked
  obtain ⟨s, b, rest, hq, hhome, hheight, rfl, hback⟩ := hst.top
  -- the part of the activation is taken for what it has at this place
  have hst' := hback (fun s' => s' = (⟨s.home, 0, []⟩ : Shape).above s.height s.loops) s.height
    m.active.frames.size s.loops (Nat.le_refl _) rfl
  obtain ⟨s', rfl, hsize, hlen⟩ := hst'.heights
  have hlength := hfills.length_eq
  rw [length_inward] at hlength
  refine ⟨homeAt m.consumers.size, s.height, s.loops, ⟨hheight.trans hsize, ?_⟩,
    .inl ⟨hs.active.pending, _, ?_, hfills⟩⟩
  · rw [← hlength, hlen]
    rfl
  · rw [hheight]
    refine (hst'.congr fun k hk ip s' hs' => ?_).mono fun s' hs' => ?_
    · rw [length_inward] at hk
      exact (Program.within_of_ne (Nat.ne_of_lt hk)).2 hs'
    · exact Program.within_self.2 ⟨_, hv.safe s.home, hs'⟩

/-! ## Where the context stands -/

theorem Amid.calls_eq (h : c.Amid program c₀ stop) (hd : c.calls.size = c₀.calls.size) :
    c.calls = c₀.calls := by
  apply Array.ext'
  refine (h.rests.calls.eq_of_length ?_).symm
  rw [Array.length_toList, hd]
  exact Array.length_toList

theorem Amid.le_calls (h : c.Amid program c₀ stop) : c₀.calls.size ≤ c.calls.size :=
  h.rests.length_le

/-- A context that stands in the stretch in its own activation has its values and its loops
on top of what it found. -/
theorem Amid.shape {home : Home} {h : Nat} {ls : List (Option Nat)}
    (hamid : c.Amid program c₀ stop) (hbased : c₀.Based h ls)
    (hp : c.Poised (program.within c₀.ip stop c₀.calls.size h ls) home)
    (hd : c.calls.size = c₀.calls.size) :
    ∃ s, Safe (program.clip c₀.ip stop) (Arrives stop) c.ip s ∧
      c.stack.size = c₀.stack.size + s.height ∧
      c.loops.size = c₀.loops.size + s.loops.length := by
  obtain ⟨hstack, hloops⟩ := hbased
  obtain ⟨ls', hst, hfills⟩ := hp.stacked
  obtain ⟨s, hq, hheight, hlen⟩ := hst.heights
  rw [hd] at hq
  obtain ⟨s₀, hsafe, rfl⟩ := Program.within_self.1 hq
  have hlength := hfills.length_eq
  rw [hamid.calls_eq hd] at hheight hlen
  rw [length_inward] at hlength
  simp only [Shape.above, List.length_append] at hheight hlen
  exact ⟨s₀, hsafe, by omega, by omega⟩

/-- A context that waits in its own activation is in the stretch, in a loop of it. -/
theorem Amid.waiting {home : Home} {h : Nat} {ls : List (Option Nat)}
    (hamid : c.Amid program c₀ stop) (hbased : c₀.Based h ls)
    (ha : c.Awaiting (program.within c₀.ip stop c₀.calls.size h ls) home)
    (hd : c.calls.size = c₀.calls.size) :
    c₀.loops.size < c.loops.size ∧ c₀.ip ≤ c.ip ∧ c.ip < stop := by
  obtain ⟨q, k, rest, group, groups, hpending, hst, hgroups, hbut, hfills⟩ := ha.stacked
  obtain ⟨s, hq, -, hlen⟩ := hst.heights
  obtain ⟨hlt, -, hlo, hhi⟩ := Program.within_awaits hq hd
  have hsize := congrArg List.length hgroups
  have hlength := hfills.length_eq
  rw [hamid.calls_eq hd] at hlen
  rw [length_inward] at hsize
  rw [List.length_cons] at hlen hsize
  have hloops := hbased.loops
  exact ⟨by omega, hlo, hhi⟩

theorem eq_push_of_isPrefix {α : Type} {xs ys : Array α} (h : xs.toList <+: ys.toList)
    (hsize : ys.size = xs.size + 1) : ∃ y, ys = xs.push y := by
  obtain ⟨rest, hrest⟩ := h
  have hlen : xs.toList.length + rest.length = ys.toList.length := by
    rw [← hrest, List.length_append]
  have hxs : xs.toList.length = xs.size := Array.length_toList
  have hys : ys.toList.length = ys.size := Array.length_toList
  obtain ⟨y, rfl⟩ := List.length_eq_one_iff.1 (show rest.length = 1 by omega)
  exact ⟨y, Array.ext' (by rw [← hrest, Array.toList_push])⟩

/-- In its own activation the context is in the stretch, or has come to its end with one
value more than it found. -/
theorem Amid.inside (h : c.Amid program c₀ stop) (hc₀ : c₀.pending = none)
    (hd : c.calls.size = c₀.calls.size) :
    (∃ v, c = { c₀ with ip := stop, stack := c₀.stack.push v }) ∨ (c₀.ip ≤ c.ip ∧ c.ip < stop) := by
  obtain ⟨home, height, ls, hbased, hp | ha⟩ := h.stands
  · obtain ⟨s, hsafe, hstack, hloops⟩ := h.shape hbased hp hd
    rcases hsafe.inside with ⟨hip, hone, hnil⟩ | ⟨i, -, hlo, hhi, -⟩
    · rw [hone] at hstack
      rw [hnil, List.length_nil] at hloops
      obtain ⟨v, hv⟩ := eq_push_of_isPrefix h.rests.stack hstack
      refine .inl ⟨v, ?_⟩
      have hgroups : c.loops = c₀.loops := by
        apply Array.ext'
        refine (h.rests.loops.eq_of_length ?_).symm
        rw [Array.length_toList, hloops]
        exact Array.length_toList
      have hcalls := h.calls_eq hd
      have hframes := h.rests.own (hd.trans Array.length_toList.symm)
      have hpending := hp.pending.trans hc₀.symm
      obtain ⟨ip, stack, frames, calls, loops, pending⟩ := c
      subst hip hv hgroups hcalls hframes hpending
      rfl
    · exact .inr ⟨hlo, hhi⟩
  · exact .inr (h.waiting hbased ha hd).2

/-! ## Steps -/

/-- What the next instruction takes was put there since. -/
theorem Amid.clear {home : Home} {h : Nat} {ls : List (Option Nat)}
    (hamid : c.Amid program c₀ stop) (hbased : c₀.Based h ls)
    (hp : c.Poised (program.within c₀.ip stop c₀.calls.size h ls) home)
    (hi : program.instruction? c.ip = some i)
    (hend : c.calls.size = c₀.calls.size → c.ip ≠ stop) : c.Clear c₀.floor i := by
  rcases Nat.lt_or_eq_of_le hamid.le_calls with hlt | hd
  · exact hamid.rests.clear hp (Program.supports_within hi hend) hlt
  · obtain ⟨s, hsafe, hstack, hloops⟩ := hamid.shape hbased hp hd.symm
    rcases hsafe.inside with ⟨hip, -⟩ | ⟨j, hj, -, -, hadm, -⟩
    · exact absurd hip (hend hd.symm)
    · cases hi.symm.trans hj
      have htakes := hadm.1
      have hlen : c₀.floor.stack.length = c₀.stack.size := Array.length_toList
      exact ⟨by omega, s, hadm, Nat.le_of_eq hloops.symm⟩

/-- A context that waits does so in a loop that it opened since. -/
theorem Amid.loops_lt {home : Home} {h : Nat} {ls : List (Option Nat)}
    (hamid : c.Amid program c₀ stop) (hbased : c₀.Based h ls)
    (ha : c.Awaiting (program.within c₀.ip stop c₀.calls.size h ls) home) :
    c₀.floor.loops.length < c.loops.size := by
  rcases Nat.lt_or_eq_of_le hamid.le_calls with hlt | hd
  · have hr : c.calls.back? = some c.calls[c.calls.size - 1] := by
      rw [Array.back?_eq_getElem?, Array.getElem?_eq_getElem]
    obtain ⟨-, hdepth, -⟩ := hamid.rests.above _ (RestsOn.mem_drop_back hr hlt)
    exact Nat.lt_of_le_of_lt hdepth (ha.floor hr).2
  · exact (hamid.waiting hbased ha hd.symm).1

/-- A step that leaves the activation there keeps the context on its way. -/
theorem Amid.step (hs : m.Sound program) (hamid : c.Amid program c₀ stop)
    (hc : m.seat? seat = some c) (hi : program.instruction? m.active.ip = some i)
    (hm : Move program program.Trusts i m m') (hc' : m'.seat? (m.reseat i seat) = some c')
    (hend : c.calls.size = c₀.calls.size → c.ip ≠ stop)
    (hd : c₀.calls.size ≤ c'.calls.size) : c'.Amid program c₀ stop := by
  obtain ⟨home, h, ls, hbased, hstands⟩ := hamid.stands
  cases hm.followed hs hc hc' with
  | same heq => exact heq ▸ hamid
  | turned _ hactive ht =>
    subst hactive
    rcases hstands with hp | ha
    · refine ⟨hamid.rests.turn (hamid.clear hbased hp hi hend) ht hd, home, h, ls, hbased,
        hp.turn (Program.supports_within hi hend) (fun f hf => ?_) ht⟩
      have hne := Nat.ne_of_gt (Nat.lt_succ_of_le hamid.le_calls)
      exact (Program.within_of_ne hne).2 hf
    · obtain ⟨q, hq, -⟩ := ha.pending
      rw [hs.active.pending] at hq
      cases hq
  | woken _ _ hconsumer _ _ hw =>
    rcases hstands with hp | ha
    · obtain ⟨q, hq, -⟩ := (hs.awaiting _ _ hconsumer).pending
      rw [hp.pending] at hq
      cases hq
    · exact ⟨hamid.rests.wake (hamid.loops_lt hbased ha) hw hd, home, h, ls, hbased,
        .inl (ha.wake hw)⟩

/-- A context that comes to the end of the stretch is active there. -/
theorem ends_active (hv : program.Valued lo stop) (hs : m.Sound program)
    (hs' : m'.Sound program) (hc : m.seat? seat = some c)
    (hi : program.instruction? m.active.ip = some i) (hm : Move program program.Trusts i m m')
    (hc' : m'.seat? (m.reseat i seat) = some c') (hp : c'.pending = none)
    (hip : c'.ip = stop) (hne : c' ≠ c) : m.reseat i seat = m'.front ∧ m'.active = c' := by
  cases hm.followed hs hc hc' with
  | same heq => exact absurd heq hne
  | woken hpath hbehind _ hlevel hactive _ =>
    refine ⟨?_, hactive.symm⟩
    rw [Machine.reseat_of_lt hbehind, Machine.front, ← hlevel, ← hpath]
  | turned hfront hactive ht =>
    subst hactive hfront
    have hy : i.effect ≠ .yield := by
      intro he
      obtain ⟨j, hj, hop⟩ := hv.last
      refine hop ?_
      cases ht with
      | yield =>
        rw [← hip] at hj
        cases hi.symm.trans hj
        exact Instruction.opcode_of_yield he
      | stay hlocal => rw [he] at hlocal; exact hlocal.elim
      | enter he' | leave he' | openGroup he' | spawn he' | resume he' | closeGroup he' =>
        rw [he] at he'
        cases he'
    rw [Machine.reseat_front hy] at hc' ⊢
    obtain ⟨d, hd, hunder⟩ := Machine.seat?_eq_some.1 hc'
    cases hunder
    have hlevel : m.consumers.size = m'.consumers.size := by
      refine Nat.le_antisymm (Machine.le_of_spine hd) (Nat.le_of_not_lt fun hlt => ?_)
      rw [show m.front.level = m.consumers.size from rfl, Machine.spine_of_lt hlt] at hd
      obtain ⟨q, hq, -⟩ := (hs'.awaiting _ _ hd).pending
      rw [hp] at hq
      cases hq
    rw [show m.front.level = m.consumers.size from rfl, hlevel, Machine.spine_top] at hd
    exact ⟨by rw [Machine.front, Machine.front, hlevel], Option.some.inj hd⟩

end Context

end YieldMachine
