import Mathlib.Algebra.Order.Group.Multiset
import Mathlib.Tactic.Abel
import YieldMachine.Proofs.Suspension.Coherent

/-!
# Conservation of contexts

Suspended contexts, wherever they wait, form a multiset. Of each instruction it is said
which contexts it adds to them and which it releases; all the others stay suspended as
they are. So contexts are neither lost nor made twice, whatever the code.

    Coherent.exchanged   m.suspended = m.released i + rest and m'.suspended = m.added i + rest
-/

namespace YieldMachine

/-! ## Definitions -/

/-- A context without what is parked under it. -/
def Context.bare (c : Context) : Context :=
  { c with loops := #[] }

/-- Contexts without what is parked under them, in whatever order. -/
def Context.bareAll (cs : List Context) : Multiset Context :=
  cs.map Context.bare

/-- The contexts that wait while the first of a chain is active: all behind it, and the
producers parked under any of the chain. -/
def Context.waitingIn : List Context → List Context
  | [] => []
  | active :: consumers => active.parked ++ consumers.flatMap Context.tree

/-- The groups of a context that were opened in its innermost call. -/
def Context.opened (c : Context) : List Group :=
  c.calls.back?.elim [] fun r => c.loops.toList.drop r.loopDepth

namespace Machine

/-- All suspended contexts: the consumers, and the producers parked under any context. -/
def suspended (m : Machine) : Multiset Context :=
  Context.bareAll (Context.waitingIn m.chain)

/-- The number of contexts, the active one included. -/
def total (m : Machine) : Nat :=
  1 + m.suspended.card

/-- The contexts without a call that a return leaves, the active one first. -/
def left (m : Machine) : List Context :=
  m.chain.takeWhile (·.calls.isEmpty)

/-- The context whose innermost call a return leaves. -/
def home? (m : Machine) : Option Context :=
  m.chain.find? (!·.calls.isEmpty)

/-- The consumers that a return makes active on its way. -/
def reactivated (m : Machine) : List Context :=
  (m.chain.take (m.left.length + 1)).tail

/-- The contexts that an instruction suspends. -/
def added (i : Instruction) (m : Machine) : Multiset Context :=
  match i.effect with
  | .spawn => {((m.active.moved (Program.jumpTarget m.active.ip i.a)).waiting
      ⟨m.active.loops.back?.elim 0 Array.size, Program.jumpTarget m.active.ip i.b⟩).bare}
  | .yield => {((m.active.moved (m.active.ip + 1)).swap i.takes #[]).bare}
  | .resume => {((m.active.moved (m.active.ip + 1)).waiting
      ⟨i.a.address.toNat, Program.jumpTarget m.active.ip i.b⟩).bare}
  | _ => 0

/-- The suspended contexts that an instruction makes active or discards. -/
def released (i : Instruction) (m : Machine) : Multiset Context :=
  match i.effect with
  | .yield => Context.bareAll m.consumers.back?.toList
  | .resume => Context.bareAll (m.active.slot? i.a.address.toNat).join.toList
  | .endIteration => Context.bareAll (m.consumers.back?.toList ++ m.active.parked)
  | .closeGroup => Context.bareAll (m.active.loops.back?.elim [] Group.parked)
  | .ret => Context.bareAll (m.reactivated ++ m.left.flatMap Context.parked ++
      m.home?.elim [] fun c => Groups.parked c.opened)
  | _ => 0

/-- How many contexts an instruction discards, as it counts them. -/
def discards (i : Instruction) (m : Machine) : Nat :=
  match i.effect with
  | .endIteration => m.active.size
  | .closeGroup => m.active.loops.back?.elim 0 Group.discarded
  | .ret => (m.left.map Context.size).sum +
      m.home?.elim 0 fun c => c.calls.back?.elim 0 fun r => c.discardedAbove r.loopDepth
  | _ => 0

/-- How many contexts an instruction starts. -/
def starts (i : Instruction) : Nat :=
  match i.effect with
  | .spawn => 1
  | _ => 0

/-- What an instruction did to the suspended contexts: those it released are gone, those it
added are there, and the others are as they were. -/
structure Exchanged (i : Instruction) (m m' : Machine) : Prop where
  contexts : ∃ rest, m.suspended = m.released i + rest ∧ m'.suspended = m.added i + rest
  count : (m.released i).card + starts i = m.discards i + (m.added i).card

end Machine

/-! ## Multisets of contexts -/

section

variable {c d : Context} {cs : Array Context} {xs ys : List Context}

@[simp] theorem Context.bareAll_nil : Context.bareAll [] = 0 :=
  rfl

@[simp] theorem Context.bareAll_append (xs ys : List Context) :
    Context.bareAll (xs ++ ys) = Context.bareAll xs + Context.bareAll ys := by
  simp [Context.bareAll]

@[simp] theorem Context.bareAll_cons (c : Context) (xs : List Context) :
    Context.bareAll (c :: xs) = {c.bare} + Context.bareAll xs :=
  rfl

@[simp] theorem Context.card_bareAll (xs : List Context) :
    (Context.bareAll xs).card = xs.length := by
  simp [Context.bareAll]

theorem Context.bareAll_perm (h : xs.Perm ys) : Context.bareAll xs = Context.bareAll ys :=
  Multiset.coe_eq_coe.2 (h.map _)

theorem Context.bareAll_tree (c : Context) :
    Context.bareAll c.tree = {c.bare} + Context.bareAll c.parked := by
  rw [Context.tree_eq, Context.bareAll_cons]

theorem Context.bareAll_trees (xs : List Context) :
    Context.bareAll (xs.flatMap Context.tree) =
      Context.bareAll xs + Context.bareAll (xs.flatMap Context.parked) := by
  induction xs with
  | nil => rfl
  | cons c xs ih =>
    rw [List.flatMap_cons, List.flatMap_cons, Context.bareAll_append, Context.bareAll_append,
      Context.bareAll_tree, Context.bareAll_cons, ih]
    abel

theorem Context.bare_of_eq (hip : d.ip = c.ip) (hs : d.stack = c.stack) (hf : d.frames = c.frames)
    (hc : d.calls = c.calls) (hp : d.pending = c.pending) : d.bare = c.bare := by
  cases c
  cases d
  cases hip
  cases hs
  cases hf
  cases hc
  cases hp
  rfl

/-- What waits in a chain, taken apart at one of its contexts. -/
theorem Context.bareAll_waitingIn (left : List Context) (home : Context) (rest : List Context) :
    Context.bareAll (Context.waitingIn (left ++ home :: rest)) =
      Context.bareAll ((left ++ [home]).tail ++ left.flatMap Context.parked) +
        Context.bareAll (home.parked ++ rest.flatMap Context.tree) := by
  cases left with
  | nil => simp [Context.waitingIn]
  | cons a left =>
    simp only [Context.waitingIn, List.cons_append, List.tail_cons, List.flatMap_append,
      List.flatMap_cons, Context.bareAll_append, Context.bareAll_tree, Context.bareAll_trees,
      Context.bareAll_cons, Context.bareAll_nil]
    abel

/-- The contexts that wait behind the active one. -/
def Context.behind (cs : Array Context) : Multiset Context :=
  Context.bareAll ((inward cs).flatMap Context.tree)

theorem Context.behind_push (cs : Array Context) (c : Context) :
    Context.behind (cs.push c) = {c.bare} + Context.bareAll c.parked + Context.behind cs := by
  rw [Context.behind, inward_push, List.flatMap_cons, Context.bareAll_append,
    Context.bareAll_tree]
  rfl

theorem Context.behind_back (h : cs.back? = some c) :
    Context.behind cs = {c.bare} + Context.bareAll c.parked + Context.behind cs.pop := by
  rw [Context.behind, inward_eq_cons.2 ⟨h, rfl⟩, List.flatMap_cons, Context.bareAll_append,
    Context.bareAll_tree]
  rfl

theorem Machine.suspended_eq (m : Machine) :
    m.suspended = Context.bareAll m.active.parked + Context.behind m.consumers := by
  rw [Machine.suspended, Machine.chain, Context.waitingIn, Context.bareAll_append]
  rfl

theorem Context.size_eq (c : Context) : c.size = c.parked.length + 1 := by
  rw [← Context.length_tree, Context.tree_eq, List.length_cons]

theorem Context.sum_sizes (xs : List Context) :
    (xs.map Context.size).sum = xs.length + (xs.flatMap Context.parked).length := by
  induction xs with
  | nil => rfl
  | cons x xs ih =>
    rw [List.map_cons, List.sum_cons, ih, List.flatMap_cons, List.length_append,
      List.length_cons, Context.size_eq]
    omega

end

/-! ## Returns -/

/-- A return leaves a chain up to its first context with a call. -/
theorem Action.leaveProducers_chain {active c : Context} {consumers cs : Array Context}
    {gone n : Nat} (h : Action.leaveProducers active consumers n = some (c, cs, gone)) :
    ∀ a : Context, a.calls = active.calls → a.loops = active.loops →
      ∃ home, home.calls.isEmpty = false ∧ c.calls = home.calls ∧ c.loops = home.loops ∧
        a :: inward consumers =
          (a :: inward consumers).takeWhile (·.calls.isEmpty) ++ home :: inward cs ∧
        gone = n +
          (((a :: inward consumers).takeWhile (·.calls.isEmpty)).map Context.size).sum := by
  fun_induction Action.leaveProducers active consumers n with
  | case1 active consumers gone' he hpos consumer ih =>
    intro a hc hl
    have hback : consumers.back? = some consumer := by
      rw [Array.back?_eq_getElem?, Array.getElem?_eq_getElem]
    have hin := inward_eq_cons.2 ⟨hback, rfl⟩
    obtain ⟨home, hhome, hcalls, hloops, hchain, hgone⟩ := ih h consumer rfl rfl
    refine ⟨home, hhome, hcalls, hloops, ?_, ?_⟩
    · rw [List.takeWhile_cons_of_pos (by rw [hc]; exact he), List.cons_append, hin, ← hchain]
    · rw [List.takeWhile_cons_of_pos (by rw [hc]; exact he), hin, List.map_cons, List.sum_cons,
        hgone, Context.discard_eq_size active, Context.size_eq a, Context.size_eq active,
        Context.parked_of_loops hl]
      omega
  | case2 active consumers gone' he hpos => cases h
  | case3 active consumers gone' he =>
    cases h
    intro a hc hl
    have hempty : ¬ a.calls.isEmpty = true := by rwa [hc]
    have hnil : (a :: inward cs).takeWhile (·.calls.isEmpty) = [] :=
      List.takeWhile_cons_of_neg hempty
    refine ⟨a, by simpa using hempty, hc.symm, hl.symm, ?_, ?_⟩
    · rw [hnil, List.nil_append]
    · rw [hnil]
      rfl

/-- What a return leaves, gives back and discards, told from the machine before it. -/
theorem Machine.ret_chain {c : Context} {cs : Array Context} {m : Machine} {gone ip n : Nat}
    {vs : Array Value}
    (h : Action.leaveProducers ((m.active.moved ip).swap n vs) m.consumers 0 =
      some (c, cs, gone)) :
    ∃ home, m.home? = some home ∧ c.calls = home.calls ∧ c.loops = home.loops ∧
      m.chain = m.left ++ home :: inward cs ∧ m.reactivated = (m.left ++ [home]).tail ∧
      gone = (m.left.map Context.size).sum := by
  obtain ⟨home, hhome, hcalls, hloops, hchain, hgone⟩ :=
    Action.leaveProducers_chain h m.active rfl rfl
  have hchain' : m.chain = m.left ++ home :: inward cs := hchain
  refine ⟨home, ?_, hcalls, hloops, hchain', ?_, by rw [hgone, Nat.zero_add]; rfl⟩
  · have hleft : m.left.find? (!·.calls.isEmpty) = none := by
      rw [List.find?_eq_none]
      intro d hd
      simpa using List.all_eq_true.1 List.all_takeWhile d hd
    rw [Machine.home?, hchain', List.find?_append, hleft, List.find?_cons_of_pos (by simp [hhome])]
    rfl
  · rw [Machine.reactivated]
    conv_lhs => rw [hchain']
    rw [show m.left ++ home :: inward cs = m.left ++ [home] ++ inward cs by simp,
      List.take_append_of_le_length (by simp), List.take_of_length_le (by simp)]

/-! ## Moves -/

namespace Machine

variable {program : Program} {F : Func → Prop} {limits : Limits} {i : Instruction}
  {m m' : Machine}

/-- An instruction that suspends nothing and releases nothing leaves all as it was. -/
theorem Exchanged.of_eq (hadded : m.added i = 0) (hreleased : m.released i = 0)
    (hdiscards : m.discards i = 0) (hstarts : starts i = 0) (h : m'.suspended = m.suspended) :
    m.Exchanged i m' := by
  refine ⟨⟨m.suspended, ?_, ?_⟩, ?_⟩
  · rw [hreleased, zero_add]
  · rw [hadded, zero_add, h]
  · rw [hadded, hreleased, hdiscards, hstarts]
    rfl

/-- An instruction that works on the active context alone. -/
theorem Exchanged.of_local (hl : i.effect.IsLocal) (h : m'.suspended = m.suspended) :
    m.Exchanged i m' := by
  have hadded : m.added i = 0 := by
    unfold added
    split <;> simp_all [Effect.IsLocal]
  have hreleased : m.released i = 0 := by
    unfold released
    split <;> simp_all [Effect.IsLocal]
  have hdiscards : m.discards i = 0 := by
    unfold discards
    split <;> simp_all [Effect.IsLocal]
  have hstarts : starts i = 0 := by
    unfold starts
    split <;> simp_all [Effect.IsLocal]
  exact .of_eq hadded hreleased hdiscards hstarts h

/-- A return gives back the consumers on its way, and discards what is left behind. -/
theorem Exchanged.ret {c : Context} {cs : Array Context} {gone ip n : Nat} {r : CallRecord}
    {vs ws : Array Value} (he : i.effect = .ret)
    (hl : Action.leaveProducers ((m.active.moved ip).swap n vs) m.consumers 0 = some (c, cs, gone))
    (hr : c.calls.back? = some r) (hcs : m'.consumers = cs)
    (hactive : m'.active = ((c.leave r).moved r.returnIp).swap 0 ws) : m.Exchanged i m' := by
  obtain ⟨home, hhome, hcalls, hloops, hchain, hreactivated, -⟩ := ret_chain hl
  rw [hcalls] at hr
  have hopened : home.opened = home.loops.toList.drop r.loopDepth := by
    rw [Context.opened, hr]
    rfl
  have hreleased : m.released i = Context.bareAll ((m.left ++ [home]).tail ++
      m.left.flatMap Context.parked ++ Groups.parked (home.loops.toList.drop r.loopDepth)) := by
    rw [released, he, hreactivated, hhome, ← hopened]
    rfl
  have hadded : m.added i = 0 := by rw [added, he]
  have hparked : m'.active.parked = (home.leave r).parked := by
    rw [hactive, Context.parked_swap, Context.parked_moved]
    exact Context.parked_of_loops (by rw [Context.leave_eq, Context.leave_eq, hloops])
  refine ⟨⟨m'.suspended, ?_, by rw [hadded, zero_add]⟩, ?_⟩
  · rw [suspended, hchain, Context.bareAll_waitingIn, hreleased, suspended_eq, hparked, hcs,
      Context.bareAll_append, Context.bareAll_append (home.parked), Context.parked_leave r]
    simp only [Context.bareAll_append, Context.behind]
    abel
  · rw [hreleased, hadded, Context.card_bareAll, starts, discards, he, hhome]
    simp only [Option.elim_some]
    rw [hr, Option.elim_some, ← Context.length_groupsAbove, Context.sum_sizes]
    simp only [List.length_append, List.length_tail, List.length_cons, List.length_nil,
      Multiset.card_zero]
    omega

section

variable {c producer consumer : Context} {cs : Array Context} {group : Group} {p : Pending}
  {v : Value} {g : Globals} {hp : Heap} {co : Console} {j j' : Journal}

/-- A consumer that waits for a new producer is suspended, and nothing else. -/
theorem Exchanged.spawn (he : i.effect = .spawn) (hg : c.loops.back? = some group) :
    Exchanged i ⟨c, cs, g, hp, co, j⟩ ⟨.start (c.ip + 1) c.frames.addressable,
      cs.push ((c.openSlot.moved (Program.jumpTarget c.ip i.a)).waiting
        ⟨group.size, Program.jumpTarget c.ip i.b⟩), g, hp, co, j'⟩ := by
  have hbare : ((c.openSlot.moved (Program.jumpTarget c.ip i.a)).waiting
      ⟨group.size, Program.jumpTarget c.ip i.b⟩).bare =
      ((c.moved (Program.jumpTarget c.ip i.a)).waiting
        ⟨group.size, Program.jumpTarget c.ip i.b⟩).bare := by
    rw [Context.openSlot_eq]
    rfl
  refine ⟨⟨_, by rw [released, he, zero_add], ?_⟩, ?_⟩
  · rw [suspended_eq, suspended_eq, added, he]
    dsimp only
    rw [hg, Context.behind_push, hbare, Context.parked_start, Context.parked_waiting,
      Context.parked_moved, Context.parked_openSlot hg, Context.bareAll_nil, Option.elim_some]
    abel
  · rw [released, starts, discards, added, he]
    rfl

/-- A producer is suspended in the slot of its consumer, which is released. -/
theorem Exchanged.yield (he : i.effect = .yield) (hawake : c.pending = none)
    (hb : cs.back? = some consumer) (hempty : consumer.slot? p.slot = some none) :
    Exchanged i ⟨c, cs, g, hp, co, j⟩ ⟨((consumer.setSlot p.slot
        (some ((c.moved (c.ip + 1)).swap i.takes #[]).awake)).awake).swap 0 #[v],
      cs.pop, g, hp, co, j'⟩ := by
  have hparked := Context.parked_park hempty ((c.moved (c.ip + 1)).swap i.takes #[]).awake
  have hbare : ((c.moved (c.ip + 1)).swap i.takes #[]).awake.bare =
      ((c.moved (c.ip + 1)).swap i.takes #[]).bare :=
    Context.bare_of_eq rfl rfl rfl rfl hawake.symm
  have hreleased : released i ⟨c, cs, g, hp, co, j⟩ = {consumer.bare} := by
    rw [released, he]
    dsimp only
    rw [hb]
    rfl
  have hadded : added i ⟨c, cs, g, hp, co, j⟩ =
      {((c.moved (c.ip + 1)).swap i.takes #[]).bare} := by rw [added, he]
  refine ⟨⟨Context.bareAll c.parked + Context.bareAll consumer.parked + Context.behind cs.pop,
    ?_, ?_⟩, ?_⟩
  · rw [suspended_eq, hreleased, Context.behind_back hb]
    abel
  · rw [suspended_eq, hadded, Context.parked_swap, Context.parked_awake,
      Context.bareAll_perm hparked, Context.bareAll_append, Context.bareAll_tree, hbare,
      Context.parked_awake, Context.parked_swap, Context.parked_moved]
    abel
  · rw [hreleased, hadded, starts, discards, he]
    rfl

/-- A parked producer is released, and its consumer suspended. -/
theorem Exchanged.resume (he : i.effect = .resume)
    (hslot : c.slot? i.a.address.toNat = some (some producer)) :
    Exchanged i ⟨c, cs, g, hp, co, j⟩ ⟨producer.awake,
      cs.push (((c.moved (c.ip + 1)).setSlot i.a.address.toNat none).waiting
        ⟨i.a.address.toNat, Program.jumpTarget c.ip i.b⟩), g, hp, co, j'⟩ := by
  have hperm := Context.parked_unpark hslot
  have hslot' : (c.moved (c.ip + 1)).setSlot i.a.address.toNat none =
      (c.setSlot i.a.address.toNat none).moved (c.ip + 1) := by
    rw [Context.setSlot_eq, Context.setSlot_eq]
    rfl
  have hbare : (((c.moved (c.ip + 1)).setSlot i.a.address.toNat none).waiting
      ⟨i.a.address.toNat, Program.jumpTarget c.ip i.b⟩).bare =
      ((c.moved (c.ip + 1)).waiting
        ⟨i.a.address.toNat, Program.jumpTarget c.ip i.b⟩).bare := by
    rw [Context.setSlot_eq]
    rfl
  have hreleased : released i ⟨c, cs, g, hp, co, j⟩ = {producer.bare} := by
    rw [released, he]
    dsimp only
    rw [hslot]
    rfl
  refine ⟨⟨Context.bareAll producer.parked +
    Context.bareAll (c.setSlot i.a.address.toNat none).parked + Context.behind cs, ?_, ?_⟩, ?_⟩
  · rw [suspended_eq, hreleased, Context.bareAll_perm hperm, Context.bareAll_append,
      Context.bareAll_tree]
    abel
  · rw [suspended_eq, added, he, Context.behind_push, hbare, Context.parked_waiting, hslot']
    simp only [Context.parked_moved, Context.parked_awake]
    abel
  · rw [hreleased, starts, discards, added, he]
    rfl

/-- A producer that ends is gone with all that is parked under it, and its consumer released. -/
theorem Exchanged.endIteration (he : i.effect = .endIteration) (hb : cs.back? = some consumer) :
    Exchanged i ⟨c, cs, g, hp, co, j⟩
      ⟨(consumer.moved p.onDrop).awake, cs.pop, g, hp, co, j'⟩ := by
  have hreleased : released i ⟨c, cs, g, hp, co, j⟩ =
      {consumer.bare} + Context.bareAll c.parked := by
    rw [released, he]
    dsimp only
    rw [hb]
    rfl
  refine ⟨⟨Context.bareAll consumer.parked + Context.behind cs.pop, ?_, ?_⟩, ?_⟩
  · rw [suspended_eq, hreleased, Context.behind_back hb]
    abel
  · rw [suspended_eq, added, he, zero_add, Context.parked_awake, Context.parked_moved]
  · rw [hreleased, starts, discards, added, he]
    dsimp only
    rw [Context.size_eq, Multiset.card_add, Context.card_bareAll, Multiset.card_singleton,
      Multiset.card_zero]
    omega

/-- With a loop go the producers that are parked in it. -/
theorem Exchanged.closeGroup (he : i.effect = .closeGroup) (hg : c.loops.back? = some group) :
    Exchanged i ⟨c, cs, g, hp, co, j⟩ ⟨(c.moved (c.ip + 1)).closeGroup, cs, g, hp, co, j'⟩ := by
  have hreleased : released i ⟨c, cs, g, hp, co, j⟩ = Context.bareAll group.parked := by
    rw [released, he]
    dsimp only
    rw [hg]
    rfl
  refine ⟨⟨Context.bareAll c.closeGroup.parked + Context.behind cs, ?_, ?_⟩, ?_⟩
  · rw [suspended_eq, hreleased, Context.parked_closeGroup hg, Context.bareAll_append]
    abel
  · rw [suspended_eq, added, he, zero_add]
    congr 2
    exact Context.parked_of_loops (by rw [Context.closeGroup_eq, Context.closeGroup_eq]; rfl)
  · rw [hreleased, starts, discards, added, he]
    dsimp only
    rw [hg, Option.elim_some, Context.card_bareAll, Group.length_parked]
    rfl

end

/-- A move exchanges suspended contexts as its instruction says. -/
theorem Coherent.exchanged (h : m.Coherent) (hm : Move program F i m m') : m.Exchanged i m' := by
  have hawake := h.awake
  cases hm with
  | stay hl ht hk hv => exact .of_local hl (by simp [suspended_eq])
  | enter he hf => exact .of_local (by rw [he]; trivial) (by simp [suspended_eq])
  | ret he hval hv hl hr => exact .ret he hl hr rfl rfl
  | openGroup he =>
    refine .of_eq (by rw [added, he]) (by rw [released, he]) (by rw [discards, he])
      (by rw [starts, he]) ?_
    rw [suspended_eq, suspended_eq]
    congr 2
    exact Context.parked_openGroup
  | spawn he hg => exact .spawn he hg
  | yield he hval hv hb hwaits hslot =>
    obtain ⟨p', hp', hempty⟩ := h.innermost hb
    cases hwaits.symm.trans hp'
    exact .yield he hawake hb hempty
  | resume he hslot => exact .resume he hslot
  | endIteration he hb hwaits => exact .endIteration he hb
  | closeGroup he hg => exact .closeGroup he hg

/-- Of every step that does not fail, whatever the code: the suspended contexts that its
instruction releases are gone, those it adds are there, and all others wait on as they
were. The number of contexts grows by the one that is spawned, and shrinks by those that
are counted as discarded. -/
theorem step_conserves {n start : Nat} {m₀ : Machine}
    (hrun : run program limits n (m₀.restart start) = .running m)
    (hi : program.instruction? m.active.ip = some i)
    (hstep : m.step program limits = .running m' ∨
      ∃ status, m.step program limits = .exited status m') :
    (∃ rest, m.suspended = m.released i + rest ∧ m'.suspended = m.added i + rest) ∧
      m'.total + m.discards i = m.total + if i.opcode = .spawn then 1 else 0 := by
  have hm : m.Coherent := by
    have hcoherent := (Coherent.restart m₀ start).run program limits n
    rwa [hrun] at hcoherent
  have hexchanged : m.Exchanged i m' := by
    have htaken := m.step_taken program limits
    rcases hstep with hstep | ⟨status, hstep⟩
    · rw [hstep] at htaken
      cases htaken with
      | running hj hmove =>
        cases hi.symm.trans hj
        exact hm.exchanged hmove
    · rw [hstep] at htaken
      cases htaken with
      | exited hj he hcs ha =>
        cases hi.symm.trans hj
        refine .of_eq (by rw [added, he]) (by rw [released, he]) (by rw [discards, he])
          (by rw [Machine.starts, he]) ?_
        rw [suspended_eq, suspended_eq, hcs, ha, Context.parked_swap, Context.parked_moved]
  refine ⟨hexchanged.contexts, ?_⟩
  obtain ⟨rest, hbefore, hafter⟩ := hexchanged.contexts
  have hcount := hexchanged.count
  have hstarts : starts i = if i.opcode = .spawn then 1 else 0 := by
    obtain ⟨opcode, a, b, c⟩ := i
    cases opcode <;> rfl
  rw [total, total, hbefore, hafter, Multiset.card_add, Multiset.card_add, ← hstarts]
  omega

end Machine

/-- Of the run of `Program.crossing`, the fifth step yields, and the seventh returns from the
producer that was parked then: its consumer is active again, and the producer is gone. -/
theorem Machine.step_conserves_crossing :
    ∃ i j, Machine.run .crossing {} 4 ((Machine.fresh default default).restart 0) =
        .running (Machine.crossing 4) ∧
      Program.crossing.instruction? (Machine.crossing 4).active.ip = some i ∧ i.opcode = .yield ∧
      (Machine.crossing 4).step .crossing {} = .running (Machine.crossing 5) ∧
      (∃ rest, (Machine.crossing 4).suspended = (Machine.crossing 4).released i + rest ∧
        (Machine.crossing 5).suspended = (Machine.crossing 4).added i + rest) ∧
      Machine.run .crossing {} 6 ((Machine.fresh default default).restart 0) =
        .running (Machine.crossing 6) ∧
      Program.crossing.instruction? (Machine.crossing 6).active.ip = some j ∧ j.opcode = .ret ∧
      (Machine.crossing 6).step .crossing {} = .running (Machine.crossing 7) ∧
      (∃ rest, (Machine.crossing 6).suspended = (Machine.crossing 6).released j + rest ∧
        (Machine.crossing 7).suspended = (Machine.crossing 6).added j + rest) ∧
      (Machine.crossing 7).total + (Machine.crossing 6).discards j =
        (Machine.crossing 6).total := by
  have hrun : ∀ n, (Machine.run .crossing {} n
      ((Machine.fresh default default).restart 0)).isEnd = false →
      Machine.run .crossing {} n ((Machine.fresh default default).restart 0) =
        .running (Machine.crossing n) := fun n h => Step.eq_running h
  have hstep : ∀ n, (Machine.run .crossing {} (n + 1)
      ((Machine.fresh default default).restart 0)).isEnd = false →
      (Machine.crossing n).step .crossing {} = .running (Machine.crossing (n + 1)) :=
    fun n h => Machine.run_one.symm.trans (Machine.run_machine h)
  have hinstr : ∀ n, (Program.crossing.instruction? (Machine.crossing n).active.ip).isSome →
      Program.crossing.instruction? (Machine.crossing n).active.ip = some _ :=
    fun n h => (Option.some_get! _ h).symm
  have hrun₄ := hrun 4 (by decide +kernel)
  have hrun₆ := hrun 6 (by decide +kernel)
  have hi := hinstr 4 (by decide +kernel)
  have hj := hinstr 6 (by decide +kernel)
  have hstep₄ := hstep 4 (by decide +kernel)
  have hstep₆ := hstep 6 (by decide +kernel)
  obtain ⟨hcontexts, htotal⟩ := Machine.step_conserves hrun₆ hj (.inl hstep₆)
  rw [if_neg (by decide +kernel), Nat.add_zero] at htotal
  exact ⟨_, _, hrun₄, hi, by decide +kernel, hstep₄,
    (Machine.step_conserves hrun₄ hi (.inl hstep₄)).1, hrun₆, hj, by decide +kernel, hstep₆,
    hcontexts, htotal⟩

end YieldMachine
