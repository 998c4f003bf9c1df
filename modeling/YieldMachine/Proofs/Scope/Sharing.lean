import Mathlib.Data.List.Chain
import YieldMachine.Proofs.Run.Origin
import YieldMachine.Proofs.Scope.Frames

/-!
# Shared frames

A producer runs on the frames of the context that spawned it: its code finds the same two
frames on top that the code of its consumer finds. So all code that is run for an
activation, in its own context or in a producer of one of its loops, addresses the same
frames, wherever the producers are parked in between.

    Sharing.move   a move leaves producers on the frames of their consumers
    Sharing.run    so does a run
-/

namespace YieldMachine

/-! ## Definitions -/

/-- Each producer under a context runs on the frames of the activation that opened its group. -/
inductive Context.Shares : Context → Prop
  | intro {c : Context}
      (own : ∀ place p, c.slotAt? place = some p → p.ground.Alike (c.framesAt place.1))
      (producers : ∀ place p, c.slotAt? place = some p → p.Shares) : Shares c

/-- All producers run on the frames of their consumers: those that are parked, and those that
a consumer waits for. -/
structure Machine.Sharing (m : Machine) : Prop where
  contexts : ∀ c ∈ m.chain, c.Shares
  spine : m.chain.IsChain fun d c => d.ground.Alike c.frames

/-! ## Contexts -/

namespace Context

variable {c d : Context} {g : Nat}

theorem slot_lt {place : Nat × Nat} {p : Context} (h : c.slotAt? place = some p) :
    place.1 < c.loops.size := by
  obtain ⟨group, hg, -⟩ := slotAt?_eq_some.1 h
  exact (Array.getElem?_eq_some_iff.1 hg).1

namespace Shares

theorem own (h : c.Shares) :
    ∀ place p, c.slotAt? place = some p → p.ground.Alike (c.framesAt place.1) := by
  cases h with
  | intro hown _ => exact hown

theorem producers (h : c.Shares) : ∀ place p, c.slotAt? place = some p → p.Shares := by
  cases h with
  | intro _ hproducers => exact hproducers

/-- A context with no producer more, and with frames as they were for each group. -/
theorem of_covers (h : c.Shares) (hcov : Covers c d)
    (hf : ∀ g, g < d.loops.size → d.framesAt g = c.framesAt g) : d.Shares := by
  refine .intro (fun place p hp => ?_) fun place p hp => h.producers place p (hcov place p hp)
  rw [hf place.1 (slot_lt hp)]
  exact h.own place p (hcov place p hp)

/-- A context in the same activations, with no producer more. -/
theorem of_same (h : c.Shares) (hcov : Covers c d) (hcalls : d.calls = c.calls)
    (hframes : d.frames = c.frames) : d.Shares :=
  h.of_covers hcov fun _ _ => framesAt_of_eq hcalls hframes

theorem of_loops (h : c.Shares) (hloops : d.loops = c.loops) (hcalls : d.calls = c.calls)
    (hframes : d.frames = c.frames) : d.Shares :=
  h.of_same (.of_loops hloops) hcalls hframes

theorem start (ip : Nat) (frames : Chain) : (Context.start ip frames).Shares :=
  have hnone : ∀ place p, (Context.start ip frames).slotAt? place ≠ some p := fun _ _ hp =>
    absurd (slot_lt hp) (Nat.not_lt_zero _)
  .intro (fun place p hp => absurd hp (hnone place p)) fun place p hp => absurd hp (hnone place p)

/-- A producer is parked in the group of the activation that it runs for. -/
theorem park {p : Context} (h : c.Shares) (slot : Nat) (hp : p.Shares)
    (hs : p.ground.Alike (c.framesAt (c.loops.size - 1))) : (c.setSlot slot (some p)).Shares := by
  have hframes : ∀ g, (c.setSlot slot (some p)).framesAt g = c.framesAt g := fun g =>
    framesAt_of_eq (c.calls_setSlot _ _) (c.frames_setSlot _ _)
  refine .intro (fun place q hq => ?_) fun place q hq => ?_
  · rw [hframes]
    rcases slotAt?_setSlot hq with ⟨rfl, hput⟩ | ⟨-, hq⟩
    · cases hput
      exact hs
    · exact h.own place q hq
  · rcases slotAt?_setSlot hq with ⟨-, hq⟩ | ⟨-, hq⟩
    · cases hq
      exact hp
    · exact h.producers place q hq

theorem enter (h : c.Shares) (hn : c.Nested) (f : Func) (b : Nat) (id : FrameId) :
    (c.enter f b id).Shares ∧ (c.enter f b id).ground = c.ground := by
  refine ⟨h.of_covers (.of_loops (by rw [enter_eq])) fun g hg => ?_, ground_enter hn f b id⟩
  rw [enter_eq] at hg
  exact framesAt_enter hn f b id hg

theorem leave {r : CallRecord} (h : c.Shares) (hn : c.Nested) (hr : c.calls.back? = some r)
    (v : Value) :
    (((c.leave r).moved r.returnIp).swap 0 #[v]).Shares ∧
      (((c.leave r).moved r.returnIp).swap 0 #[v]).ground = c.ground := by
  refine ⟨h.of_covers (Covers.leave r) fun g hg => ?_, ground_leave hn hr⟩
  have hlt : g < r.loopDepth := by
    have hsize : g < (c.leave r).loops.size := hg
    rw [leave_eq, Array.size_shrink] at hsize
    omega
  exact (framesAt_of_eq rfl rfl).trans (framesAt_leave hn hr hlt)

end Shares

end Context

/-! ## Machines -/

namespace Machine.Sharing

variable {program : Program} {F : Func → Prop} {i : Instruction} {m m' : Machine} {limits : Limits}

/-- Frames are shared if they are under the active context, and among those behind it. -/
theorem of_active {c : Context} {cs : Array Context} {g : Globals} {hp : Heap} {co : Console}
    {j : Journal} (hc : c.Shares) (hcs : ∀ d ∈ inward cs, d.Shares)
    (hfirst : ∀ d ∈ (inward cs).head?, c.ground.Alike d.frames)
    (hspine : (inward cs).IsChain fun d c => d.ground.Alike c.frames) :
    Machine.Sharing ⟨c, cs, g, hp, co, j⟩ :=
  ⟨List.forall_mem_cons.2 ⟨hc, hcs⟩, List.isChain_cons.2 ⟨hfirst, hspine⟩⟩

/-- A consumer more waits for the producer before it, which runs on its frames. -/
theorem of_waiting {c consumer : Context} {cs : Array Context} {g : Globals} {hp : Heap}
    {co : Console} {j : Journal} (hc : c.Shares) (hconsumer : consumer.Shares)
    (hshares : c.ground.Alike consumer.frames) (hcs : ∀ d ∈ inward cs, d.Shares)
    (hfirst : ∀ d ∈ (inward cs).head?, consumer.ground.Alike d.frames)
    (hspine : (inward cs).IsChain fun d c => d.ground.Alike c.frames) :
    Machine.Sharing ⟨c, cs.push consumer, g, hp, co, j⟩ := by
  refine of_active hc ?_ ?_ ?_ <;> rw [inward_push]
  · exact List.forall_mem_cons.2 ⟨hconsumer, hcs⟩
  · rintro d ⟨⟩
    exact hshares
  · exact List.isChain_cons.2 ⟨hfirst, hspine⟩

/-- A move leaves producers on the frames of their consumers. -/
theorem move (h : m.Sharing) (hs : m.Sound program) (hco : m.Coherent)
    (hi : program.instruction? m.active.ip = some i) (hmove : Move program F i m m') :
    m'.Sharing := by
  obtain ⟨ha, hcs⟩ := List.forall_mem_cons.1 h.contexts
  obtain ⟨hfirst, hspine⟩ := List.isChain_cons.1 h.spine
  have hnested : ∀ c ∈ m.chain, c.Nested := fun c hc =>
    hco.nested c hc c (by rw [Context.tree_eq]; exact List.mem_cons_self)
  have hsupports := program.supports (d := m.active.calls.size) hi
  cases hmove with
  | stay => exact of_active (ha.of_loops rfl rfl rfl) hcs hfirst hspine
  | @enter c cs f args g hp co j j' =>
    have hn := (hnested c List.mem_cons_self).of_eq
      (d := (c.moved (c.ip + 1)).swap i.b.cells #[]) rfl rfl
    obtain ⟨hentered, hground⟩ := Context.Shares.enter
      (c := (c.moved (c.ip + 1)).swap i.b.cells #[]) (ha.of_loops rfl rfl rfl) hn f
      (c.stack.size - i.takes) hp.size
    exact of_active hentered hcs (hground ▸ hfirst) hspine
  | @ret c c' cs cs' gone r v g hp co j j' he hval hv hl hr =>
    obtain ⟨-, ⟨rfl, rfl⟩ | ⟨-, k, consumer, hget, rfl, hcs', -⟩⟩ :=
      Action.leaveProducers_eq_some hl
    · have hn := (hnested c List.mem_cons_self).of_eq
        (d := (c.moved (c.ip + 1)).swap i.takes #[]) rfl rfl
      obtain ⟨hleft, hground⟩ := Context.Shares.leave
        (c := (c.moved (c.ip + 1)).swap i.takes #[]) (ha.of_loops rfl rfl rfl) hn hr v
      exact of_active hleft hcs (hground ▸ hfirst) hspine
    · have hsuffix := cons_inward_suffix hget hcs'
      have hconsumer : consumer ∈ inward cs := hsuffix.subset List.mem_cons_self
      have hn := (hnested consumer (List.mem_cons_of_mem _ hconsumer)).of_eq
        (d := consumer.awake) rfl rfl
      obtain ⟨hafter, hrest⟩ := List.isChain_cons.1 (hspine.suffix hsuffix)
      obtain ⟨hleft, hground⟩ := Context.Shares.leave (c := consumer.awake)
        ((hcs consumer hconsumer).of_loops rfl rfl rfl) hn hr v
      exact of_active hleft (fun d hd => hcs d (hsuffix.subset (List.mem_cons_of_mem _ hd)))
        (hground ▸ hafter) hrest
  | openGroup => exact of_active (ha.of_same .openGroup rfl rfl) hcs hfirst hspine
  | @spawn c cs group g hp co j j' =>
    have hground : ((c.openSlot.moved (Program.jumpTarget c.ip i.a)).waiting
        ⟨group.size, Program.jumpTarget c.ip i.b⟩).ground = c.ground :=
      Context.ground_of_eq c.calls_openSlot c.frames_openSlot
    refine of_waiting (.start _ _)
      (ha.of_same (Context.Covers.openSlot (c := c)) c.calls_openSlot c.frames_openSlot) ?_ hcs
      (hground ▸ hfirst) hspine
    show c.frames.addressable.Alike c.openSlot.frames
    rw [c.frames_openSlot]
    exact c.frames.addressable_alike
  | @yield c consumer cs p s v g hp co j j' he hval hv hb hwaits hslot =>
    have hin := inward_eq_cons.2 ⟨hb, rfl⟩
    rw [hin] at hcs hfirst hspine
    obtain ⟨hc, hcs⟩ := List.forall_mem_cons.1 hcs
    obtain ⟨hafter, hspine⟩ := List.isChain_cons.1 hspine
    have hparked : ((c.moved (c.ip + 1)).swap i.takes #[]).awake.Shares := ha.of_loops rfl rfl rfl
    have hput := hc.park p.slot hparked
      ((hs.innermost hb).1.framesAt_last.symm ▸ hfirst consumer rfl)
    have hground : (((consumer.setSlot p.slot
        (some ((c.moved (c.ip + 1)).swap i.takes #[]).awake)).awake).swap 0 #[v]).ground =
        consumer.ground :=
      Context.ground_of_eq (consumer.calls_setSlot _ _) (consumer.frames_setSlot _ _)
    exact of_active (hput.of_loops rfl rfl rfl) hcs (hground ▸ hafter) hspine
  | @resume c producer cs g hp co j j' he hslot =>
    have hplace := Context.slotAt?_of_slot? hslot
    have hlast := hs.active.framesAt_last hsupports fun s hadm => by
      obtain ⟨k, rest, hk, -⟩ := Context.admits_resume he hadm
      simp [hk]
    have hcalls : ((c.moved (c.ip + 1)).setSlot i.a.address.toNat none).calls = c.calls :=
      (c.moved (c.ip + 1)).calls_setSlot _ _
    have hframes : ((c.moved (c.ip + 1)).setSlot i.a.address.toNat none).frames = c.frames :=
      (c.moved (c.ip + 1)).frames_setSlot _ _
    have hground : (((c.moved (c.ip + 1)).setSlot i.a.address.toNat none).waiting
        ⟨i.a.address.toNat, Program.jumpTarget c.ip i.b⟩).ground = c.ground :=
      Context.ground_of_eq hcalls hframes
    refine of_waiting ((ha.producers _ _ hplace).of_loops rfl rfl rfl)
      (ha.of_same (Context.Covers.take (c := c.moved (c.ip + 1))) hcalls hframes) ?_ hcs
      (hground ▸ hfirst) hspine
    show producer.ground.Alike ((c.moved (c.ip + 1)).setSlot i.a.address.toNat none).frames
    rw [hframes, ← hlast]
    exact ha.own _ _ hplace
  | @endIteration c consumer cs p g hp co j j' he hb hwaits =>
    have hin := inward_eq_cons.2 ⟨hb, rfl⟩
    rw [hin] at hcs hspine
    obtain ⟨hc, hcs⟩ := List.forall_mem_cons.1 hcs
    obtain ⟨hafter, hspine⟩ := List.isChain_cons.1 hspine
    exact of_active (hc.of_loops rfl rfl rfl) hcs hafter hspine
  | @closeGroup c cs group g hp co j j' he hg =>
    have hcalls : (c.moved (c.ip + 1)).closeGroup.calls = c.calls :=
      (c.moved (c.ip + 1)).calls_closeGroup
    have hframes : (c.moved (c.ip + 1)).closeGroup.frames = c.frames :=
      (c.moved (c.ip + 1)).frames_closeGroup
    have hground : ((c.moved (c.ip + 1)).closeGroup).ground = c.ground :=
      Context.ground_of_eq hcalls hframes
    exact of_active (ha.of_same (Context.Covers.closeGroup (c := c.moved (c.ip + 1))) hcalls hframes)
      hcs (hground ▸ hfirst) hspine

theorem start {ip : Nat} {frames : Chain} (ha : m.active = .start ip frames)
    (hcs : m.consumers = #[]) : m.Sharing := by
  constructor
  all_goals rw [Machine.chain, hcs, ha]
  · rintro c hc
    cases List.mem_singleton.1 hc
    exact .start ip frames
  · exact List.isChain_singleton _

/-- By induction on the run. -/
theorem run {n : Nat} (h : m.Sharing) (hs : m.Sound program) (hco : m.Coherent)
    (hrun : Machine.run program limits n m = .running m') : m'.Sharing := by
  induction n generalizing m' with
  | zero =>
    cases hrun
    exact h
  | succ n ih =>
    obtain ⟨m₁, hrun₁, hstep⟩ := Machine.run_last hrun
    have hsound := hs.run limits n
    have hcoherent := hco.run program limits n
    rw [hrun₁] at hsound hcoherent
    have hstepped := Machine.Sound.step hsound limits
    rw [hstep] at hstepped
    cases hstepped with
    | running hi hmove => exact (ih hrun₁).move hsound hcoherent hi hmove

end Machine.Sharing

end YieldMachine
