import YieldMachine.Proofs.Flow.Machine
import YieldMachine.Proofs.Machine.Inversion
import YieldMachine.Proofs.Suspension.Tree

/-!
# Coherent machines

Whatever words a program consists of, the contexts of a machine that runs it fit
together: a consumer waits for an empty slot of its innermost group, a parked producer
waits for nothing, and the calls of every context stand on ever more frames.

    run_coherent   every machine of a run from its start is coherent
-/

namespace YieldMachine

/-! ## Definitions -/

/-- The active context and the consumers behind it, the innermost first. -/
def Machine.chain (m : Machine) : List Context :=
  m.active :: inward m.consumers

/-- The context waits for the producer of an empty slot of its innermost group. -/
def Context.Waits (c : Context) : Prop :=
  ∃ (p : Pending) (group : Group), c.pending = some p ∧ c.loops.back? = some group ∧
    p.slot < group.size ∧ group[p.slot]? = some none

/-- Each call stands on more frames than the one before it, and has a frame of its own. -/
structure Context.Nested (c : Context) : Prop where
  increasing : c.calls.toList.Pairwise fun r s => r.frameDepth < s.frameDepth
  below : ∀ r ∈ c.calls, r.frameDepth < c.frames.size

/-- The contexts of a machine fit together. -/
structure Machine.Coherent (m : Machine) : Prop where
  awake : m.active.pending = none
  waits : ∀ c ∈ m.consumers, c.Waits
  parked : ∀ c ∈ m.chain, ∀ p ∈ c.parked, p.pending = none
  nested : ∀ c ∈ m.chain, ∀ d ∈ c.tree, d.Nested

/-- A context whose calls are nested, and whose producers are parked as they should be. -/
structure Context.Orderly (c : Context) : Prop where
  nested : c.Nested
  parked : ∀ p ∈ c.parked, p.pending = none ∧ p.Nested

/-! ## Contexts -/

section

variable {c d : Context} {r : CallRecord} {k : Nat}

theorem Context.waits_iff : c.Waits ↔ ∃ p, c.pending = some p ∧ c.slot? p.slot = some none := by
  constructor
  · rintro ⟨p, group, hp, hg, -, hs⟩
    exact ⟨p, hp, Option.bind_eq_some_iff.2 ⟨group, hg, hs⟩⟩
  · rintro ⟨p, hp, hs⟩
    obtain ⟨group, hg, hs⟩ := Option.bind_eq_some_iff.1 hs
    exact ⟨p, group, hp, hg, (Array.getElem?_eq_some_iff.1 hs).1, hs⟩

theorem Context.Nested.of_eq (h : c.Nested) (hc : d.calls = c.calls) (hf : d.frames = c.frames) :
    d.Nested :=
  ⟨hc ▸ h.increasing, hc ▸ hf ▸ h.below⟩

theorem Context.Nested.start (ip : Nat) (frames : Chain) : (Context.start ip frames).Nested :=
  ⟨.nil, fun _ hr => absurd hr (Array.not_mem_empty _)⟩

theorem Context.Nested.enter (h : c.Nested) (f : Func) (b : Nat) (id : FrameId) :
    (c.enter f b id).Nested := by
  rw [Context.enter_eq]
  have hframes := f.size_frames c.frames id
  constructor
  · simp only [Array.toList_push]
    refine List.pairwise_append.2 ⟨h.increasing, List.pairwise_singleton _ _, ?_⟩
    intro r hr s hs
    cases List.mem_singleton.1 hs
    exact h.below r (Array.mem_def.2 hr)
  · intro r hr
    rcases Array.mem_push.1 hr with hr | rfl
    · exact Nat.lt_trans (h.below r hr) hframes
    · exact hframes

theorem Context.calls_eq_push (hr : c.calls.back? = some r) :
    c.calls.toList = c.calls.pop.toList ++ [r] := by
  rw [Array.toList_pop]
  exact (List.dropLast_append_getLast? r (by simpa using hr)).symm

/-- The innermost call stands on more frames than those before it. -/
theorem Context.Nested.lt_back (h : c.Nested) (hr : c.calls.back? = some r) :
    ∀ s ∈ c.calls.pop.toList, s.frameDepth < r.frameDepth := by
  have hinc := h.increasing
  rw [Context.calls_eq_push hr] at hinc
  exact fun s hs => (List.pairwise_append.1 hinc).2.2 s hs r (List.mem_singleton.2 rfl)

/-- A call that is left leaves the frames that the calls before it stand on. -/
theorem Context.Nested.leave (h : c.Nested) (hr : c.calls.back? = some r) : (c.leave r).Nested := by
  have hinc := h.increasing
  rw [Context.calls_eq_push hr] at hinc
  rw [Context.leave_eq]
  refine ⟨(List.pairwise_append.1 hinc).1, fun s hs => ?_⟩
  have hsr := h.lt_back hr s (Array.mem_def.1 hs)
  have hrf := h.below r (Array.mem_of_back? hr)
  simp only [Array.size_shrink]
  omega

/-- The frames that a call stands on are there when it is left. -/
theorem Context.Nested.not_lacksFrames (h : c.Nested) (hr : c.calls.back? = some r) :
    c.lacksFrames r.frameDepth = false := by
  have := h.below r (Array.mem_of_back? hr)
  simp only [Context.lacksFrames, decide_eq_false_iff_not]
  omega

theorem Context.Orderly.of_eq (h : c.Orderly) (hc : d.calls = c.calls) (hf : d.frames = c.frames)
    (hp : ∀ p ∈ d.parked, p ∈ c.parked) : d.Orderly :=
  ⟨h.nested.of_eq hc hf, fun p hd => h.parked p (hp p hd)⟩

theorem Context.Orderly.of_loops (h : c.Orderly) (hc : d.calls = c.calls)
    (hf : d.frames = c.frames) (hl : d.loops = c.loops) : d.Orderly :=
  h.of_eq hc hf fun p hp => by rwa [Context.parked_of_loops hl] at hp

theorem Context.Orderly.moved (h : c.Orderly) (ip : Nat) : (c.moved ip).Orderly :=
  h.of_loops rfl rfl rfl

theorem Context.Orderly.awake (h : c.Orderly) : c.awake.Orderly :=
  h.of_loops rfl rfl rfl

theorem Context.Orderly.waiting (h : c.Orderly) (p : Pending) : (c.waiting p).Orderly :=
  h.of_loops rfl rfl rfl

theorem Context.Orderly.swap (h : c.Orderly) (n : Nat) (vs : Array Value) : (c.swap n vs).Orderly :=
  h.of_loops rfl rfl rfl

theorem Context.Orderly.start (ip : Nat) (frames : Chain) : (Context.start ip frames).Orderly :=
  ⟨.start ip frames, fun _ hp => absurd hp List.not_mem_nil⟩

theorem Context.Orderly.openSlot {group : Group} (h : c.Orderly) (hg : c.loops.back? = some group) :
    c.openSlot.Orderly :=
  h.of_eq (by rw [Context.openSlot_eq]) (by rw [Context.openSlot_eq]) fun p hp => by
    rwa [Context.parked_openSlot hg] at hp

theorem Context.Orderly.openGroup (h : c.Orderly) :
    ({ c with loops := c.loops.push #[] } : Context).Orderly :=
  h.of_eq rfl rfl fun p hp => by rwa [Context.parked_openGroup] at hp

theorem Context.Orderly.closeGroup {group : Group} (h : c.Orderly)
    (hg : c.loops.back? = some group) : c.closeGroup.Orderly :=
  h.of_eq (by rw [Context.closeGroup_eq]) (by rw [Context.closeGroup_eq]) fun p hp => by
    rw [Context.parked_closeGroup hg]
    exact List.mem_append_left _ hp

theorem Context.Orderly.tree (h : c.Orderly) (hc : c.pending = none) :
    ∀ p ∈ c.tree, p.pending = none ∧ p.Nested := by
  intro p hp
  rw [Context.tree_eq] at hp
  rcases List.mem_cons.1 hp with rfl | hp
  · exact ⟨hc, h.nested⟩
  · exact h.parked p hp

theorem Context.Orderly.enter (h : c.Orderly) (f : Func) (b : Nat) (id : FrameId) :
    (c.enter f b id).Orderly :=
  ⟨h.nested.enter f b id, fun p hp => h.parked p (by
    rwa [Context.parked_of_loops (c := c) (by rw [Context.enter_eq])] at hp)⟩

theorem Context.Orderly.leave (h : c.Orderly) (hr : c.calls.back? = some r) :
    (c.leave r).Orderly :=
  ⟨h.nested.leave hr, fun p hp => h.parked p (by
    rw [Context.parked_leave r]
    exact List.mem_append_left _ hp)⟩

theorem Context.Orderly.park (h : c.Orderly) (hs : c.slot? k = some none) (hd : d.Orderly)
    (hp : d.pending = none) : (c.setSlot k (some d)).Orderly := by
  refine ⟨h.nested.of_eq (c.calls_setSlot _ _) (c.frames_setSlot _ _), ?_⟩
  intro p hmem
  rcases List.mem_append.1 ((Context.parked_park hs d).mem_iff.1 hmem) with hmem | hmem
  · exact hd.tree hp p hmem
  · exact h.parked p hmem

theorem Context.Orderly.unpark {p : Context} (h : c.Orderly) (hs : c.slot? k = some (some p)) :
    p.Orderly ∧ (c.setSlot k none).Orderly := by
  have hperm := Context.parked_unpark hs
  have htree : ∀ q ∈ p.tree, q ∈ c.parked := fun q hq =>
    hperm.mem_iff.2 (List.mem_append_left _ hq)
  rw [Context.tree_eq] at htree
  refine ⟨⟨(h.parked p (htree p List.mem_cons_self)).2,
    fun q hq => h.parked q (htree q (List.mem_cons_of_mem _ hq))⟩, ?_⟩
  exact h.of_eq (c.calls_setSlot _ _) (c.frames_setSlot _ _)
    fun q hq => hperm.mem_iff.2 (List.mem_append_right _ hq)

end

/-! ## Machines -/

namespace Machine

variable {program : Program} {F : Func → Prop} {i : Instruction} {m m' : Machine}

theorem coherent_iff : m.Coherent ↔ m.active.pending = none ∧ m.active.Orderly ∧
    ∀ c ∈ m.consumers, c.Waits ∧ c.Orderly := by
  have hmem : ∀ c ∈ m.consumers, c ∈ m.chain :=
    fun c hc => List.mem_cons_of_mem _ (mem_inward.2 hc)
  constructor
  · intro h
    have horderly : ∀ c ∈ m.chain, c.Orderly := fun c hc =>
      ⟨h.nested c hc c (by rw [Context.tree_eq]; exact List.mem_cons_self), fun p hp =>
        ⟨h.parked c hc p hp,
          h.nested c hc p (by rw [Context.tree_eq]; exact List.mem_cons_of_mem _ hp)⟩⟩
    exact ⟨h.awake, horderly _ List.mem_cons_self,
      fun c hc => ⟨h.waits c hc, horderly c (hmem c hc)⟩⟩
  · rintro ⟨hawake, hactive, hconsumers⟩
    have horderly : ∀ c ∈ m.chain, c.Orderly := by
      intro c hc
      rcases List.mem_cons.1 hc with rfl | hc
      · exact hactive
      · exact (hconsumers c (mem_inward.1 hc)).2
    refine ⟨hawake, fun c hc => (hconsumers c hc).1, fun c hc p hp =>
      ((horderly c hc).parked p hp).1, fun c hc d hd => ?_⟩
    rw [Context.tree_eq] at hd
    rcases List.mem_cons.1 hd with rfl | hd
    · exact (horderly _ hc).nested
    · exact ((horderly c hc).parked d hd).2

theorem Coherent.alike (h : m.Coherent) (ha : m.Alike m') : m'.Coherent := by
  obtain ⟨hcs, ip, stack, hactive⟩ := ha
  obtain ⟨hawake, horderly, hconsumers⟩ := coherent_iff.1 h
  exact coherent_iff.2 ⟨by rw [hactive]; exact hawake, by
    rw [hactive]
    exact horderly.of_loops rfl rfl rfl, by rwa [hcs]⟩

/-- The consumer that waits innermost waits for an empty slot. -/
theorem Coherent.innermost {c : Context} (h : m.Coherent) (hc : m.consumers.back? = some c) :
    ∃ p, c.pending = some p ∧ c.slot? p.slot = some none :=
  Context.waits_iff.1 (h.waits c (Array.mem_of_back? hc))

/-- A move of any instruction keeps the contexts together. -/
theorem Coherent.move (h : m.Coherent) (hm : Move program F i m m') : m'.Coherent := by
  obtain ⟨hawake, horderly, hconsumers⟩ := coherent_iff.1 h
  have hpop : ∀ c ∈ m.consumers.pop, c.Waits ∧ c.Orderly := by
    intro c hc
    rw [Array.mem_def, Array.toList_pop] at hc
    exact hconsumers c (Array.mem_def.2 (List.dropLast_subset _ hc))
  have hpush : ∀ d : Context, d.Waits → d.Orderly →
      ∀ c ∈ m.consumers.push d, c.Waits ∧ c.Orderly := by
    intro d hw hd c hc
    rcases Array.mem_push.1 hc with hc | rfl
    · exact hconsumers c hc
    · exact ⟨hw, hd⟩
  rw [coherent_iff]
  cases hm with
  | stay hl ht hk hv => exact ⟨hawake, (horderly.moved _).swap _ _, hconsumers⟩
  | enter he hf =>
    refine ⟨?_, ((horderly.moved _).swap _ _).enter _ _ _, hconsumers⟩
    rw [Context.enter_eq]
    exact hawake
  | @ret c c' cs cs' gone r v g hp co j j' he hval hv hl hr =>
    obtain ⟨-, ⟨rfl, rfl⟩ | ⟨-, k, consumer, hk, rfl, hcs, -⟩⟩ :=
      Action.leaveProducers_eq_some hl
    · refine ⟨?_, ((((horderly.moved _).swap _ _).leave hr).moved _).swap _ _, hconsumers⟩
      rw [Context.leave_eq]
      exact hawake
    · have hconsumer := (hconsumers consumer (Array.mem_of_getElem? hk)).2
      refine ⟨?_, ((hconsumer.awake.leave hr).moved _).swap _ _, fun d hd => hconsumers d ?_⟩
      · rw [Context.leave_eq]
        rfl
      · rw [Array.mem_def, hcs] at hd
        exact Array.mem_def.2 (List.mem_of_mem_take hd)
  | openGroup he => exact ⟨hawake, (horderly.moved _).openGroup, hconsumers⟩
  | spawn he hg =>
    refine ⟨rfl, .start _ _, hpush _ (Context.waits_iff.2 ⟨_, rfl, ?_⟩)
      (((horderly.openSlot hg).moved _).waiting _)⟩
    exact Context.slot?_openSlot hg
  | @yield c consumer cs p s v g hp co j j' he hval hv hb hwaits hslot =>
    obtain ⟨p', hp', hempty⟩ := h.innermost hb
    cases hwaits.symm.trans hp'
    have hparked := (hconsumers consumer (Array.mem_of_back? hb)).2.park hempty
      ((horderly.moved (c.ip + 1)).swap i.takes #[]).awake rfl
    exact ⟨rfl, hparked.awake.swap _ _, hpop⟩
  | @resume c producer cs g hp co j j' he hslot =>
    have hslot' : (c.moved (c.ip + 1)).slot? i.a.address.toNat = some (some producer) := hslot
    obtain ⟨hproducer, hrest⟩ := (horderly.moved (c.ip + 1)).unpark hslot'
    refine ⟨rfl, hproducer.awake, hpush _ (Context.waits_iff.2 ⟨_, rfl, ?_⟩) (hrest.waiting _)⟩
    exact Context.slot?_setSlot hslot' none
  | @endIteration c consumer cs p g hp co j j' he hb hwaits =>
    have hconsumer := (hconsumers consumer (Array.mem_of_back? hb)).2
    exact ⟨rfl, (hconsumer.moved p.onDrop).awake, hpop⟩
  | @closeGroup c cs group g hp co j j' he hg =>
    refine ⟨?_, (horderly.moved (c.ip + 1)).closeGroup hg, hconsumers⟩
    rw [Context.closeGroup_eq]
    exact hawake

theorem Coherent.restart (m : Machine) (start : Nat) : (m.restart start).Coherent :=
  coherent_iff.2 ⟨rfl, .start _ _, fun _ hc => absurd hc (Array.not_mem_empty _)⟩

/-- A step keeps the contexts together, whatever it comes to. -/
theorem Coherent.step (h : m.Coherent) (program : Program) (limits : Limits) :
    (m.step program limits).machine.Coherent := by
  have hstep := m.step_taken program limits
  generalize m.step program limits = st at hstep ⊢
  cases hstep with
  | running hi hm => exact h.move hm
  | finished => exact h
  | exited hi he hcs ha => exact h.alike ⟨hcs, _, _, ha⟩
  | unread hi hm => exact hm ▸ h
  | failed hi hf =>
    rcases hf.contexts with ha | ⟨m₁, hm, ha⟩
    · exact h.alike ha
    · exact (h.move hm).alike ha

theorem Coherent.run (h : m.Coherent) (program : Program) (limits : Limits) (n : Nat) :
    (run program limits n m).machine.Coherent := by
  apply run_invariant h
  intro m₁ h₁
  exact h₁.step program limits

/-- No consumer of a coherent machine is found not to wait, or without its slot. -/
theorem Coherent.misuse (h : m.Coherent) {u : Misuse} (hu : m.Misused i u) :
    u ≠ .consumerNotWaiting ∧ u ≠ .consumerWithoutSlot := by
  constructor <;> rintro rfl
  · obtain ⟨-, consumer, hc, hp⟩ := hu
    obtain ⟨p, hp', -⟩ := h.innermost hc
    rw [hp] at hp'
    cases hp'
  · obtain ⟨-, consumer, p, hc, hp, hs⟩ := hu
    obtain ⟨p', hp', hs'⟩ := h.innermost hc
    cases hp.symm.trans hp'
    rw [hs] at hs'
    cases hs'

/-- The context that a return leaves has the frames that its caller had. -/
theorem Coherent.not_short (h : m.Coherent) : ¬ m.Short i := by
  rintro ⟨c, cs, gone, r, hl, hr, hshort⟩
  obtain ⟨-, horderly, hconsumers⟩ := coherent_iff.1 h
  have hnested : c.Nested := by
    obtain ⟨-, ⟨rfl, -⟩ | ⟨-, k, consumer, hk, rfl, -⟩⟩ := Action.leaveProducers_eq_some hl
    · exact ((horderly.moved _).swap _ _).nested
    · exact (hconsumers consumer (Array.mem_of_getElem? hk)).2.awake.nested
  rw [hnested.not_lacksFrames hr] at hshort
  cases hshort

/-- Whatever the code, the contexts of a running machine fit together. So no consumer is
found not to wait or without its slot, a value that is handed over finds the slot of its
producer empty, and a return finds the frames of its caller. -/
theorem run_protocol (program : Program) (limits : Limits) (n start : Nat) (m : Machine) :
    (run program limits n (m.restart start)).machine.Coherent ∧
    (∀ fault m', run program limits n (m.restart start) = .faulted fault m' →
      fault.cause ≠ .contextMisuse .consumerNotWaiting ∧
      fault.cause ≠ .contextMisuse .consumerWithoutSlot) ∧
    ∀ m' i, run program limits n (m.restart start) = .running m' →
      program.instruction? m'.active.ip = some i →
      (i.opcode = .yield → ∀ consumer, m'.consumers.back? = some consumer →
        ∃ p, consumer.pending = some p ∧ consumer.slot? p.slot = some none) ∧
      (i.opcode = .ret → ¬ m'.Short i ∧ ∀ ip m'',
        m'.step program limits = .faulted ⟨.frameUnderflow, ip⟩ m'' →
          Missing m'.active.frames m'.heap i.b .frameUnderflow) := by
  have hcoherent := fun k => (Coherent.restart m start).run program limits k
  refine ⟨hcoherent n, ?_, ?_⟩
  · intro fault m' hrun
    obtain ⟨k, m₁, -, hrun₁, hstep⟩ := run_isEnd hrun rfl
    have h₁ := hcoherent k
    rw [hrun₁] at h₁
    have htaken := m₁.step_taken program limits
    rw [hstep] at htaken
    cases htaken with
    | unread hi hm hu => exact ⟨fun hc => by simpa using hu _ hc, fun hc => by simpa using hu _ hc⟩
    | failed hi hf =>
      exact ⟨fun hc => (Coherent.misuse h₁ (hf.misuse _ hc)).1 rfl,
        fun hc => (Coherent.misuse h₁ (hf.misuse _ hc)).2 rfl⟩
  · intro m' i hrun hi
    have h' := hcoherent n
    rw [hrun] at h'
    refine ⟨fun _ consumer hc => Coherent.innermost h' hc, fun hret => ⟨Coherent.not_short h', ?_⟩⟩
    intro ip m'' hstep
    have htaken := m'.step_taken program limits
    rw [hstep] at htaken
    cases htaken with
    | unread hi' => rw [hi] at hi'; cases hi'
    | failed hi' hf =>
      cases hi.symm.trans hi'
      rcases hf.short (by rw [Instruction.effect, hret]; rfl) rfl with hmissing | hshort
      · exact hmissing
      · exact absurd hshort (Coherent.not_short h')

end Machine

/-- Code that no statement compiles to: a producer yields, is resumed and returns from the
function that runs its loop, the loop is begun again outside of any call, and the next
return has no call to leave. -/
def Program.crossing : Program :=
  ⟨#[⟨.makeFunction, ⟨.immediate, 1⟩, ⟨.immediate, 0⟩, ⟨.immediate, 0⟩⟩,
    ⟨.call, ⟨.immediate, 0⟩, ⟨.stack, 0⟩, .unused⟩,
    .bare .iterBegin,
    ⟨.spawn, ⟨.immediate, 2⟩, ⟨.immediate, 2⟩, .unused⟩,
    ⟨.yield, .unused, ⟨.immediate, 7⟩, .unused⟩,
    ⟨.ret, .unused, ⟨.immediate, 1⟩, .unused⟩,
    ⟨.resume, ⟨.immediate, 0⟩, ⟨.immediate, 0⟩, .unused⟩].map Instruction.encode, .empty⟩

/-- The machine after `n` steps of it. -/
def Machine.crossing (n : Nat) : Machine :=
  (Machine.run .crossing {} n ((Machine.fresh default default).restart 0)).machine

/-- The fifth step yields into an empty slot, the seventh returns, and the twelfth fails. -/
theorem Machine.run_protocol_crossing :
    ∃ i j, Machine.run .crossing {} 4 ((Machine.fresh default default).restart 0) =
        .running (Machine.crossing 4) ∧
      Program.crossing.instruction? (Machine.crossing 4).active.ip = some i ∧ i.opcode = .yield ∧
      (Machine.crossing 4).consumers.back?.isSome ∧
      (∀ consumer, (Machine.crossing 4).consumers.back? = some consumer →
        ∃ p, consumer.pending = some p ∧ consumer.slot? p.slot = some none) ∧
      Machine.run .crossing {} 6 ((Machine.fresh default default).restart 0) =
        .running (Machine.crossing 6) ∧
      Program.crossing.instruction? (Machine.crossing 6).active.ip = some j ∧ j.opcode = .ret ∧
      ¬ (Machine.crossing 6).Short j ∧
      Machine.run .crossing {} 12 ((Machine.fresh default default).restart 0) =
        .faulted ⟨.returnOutsideCall, 5⟩ (Machine.crossing 12) ∧
      (Machine.crossing 12).Coherent := by
  have hrun : ∀ n, (Machine.run .crossing {} n
      ((Machine.fresh default default).restart 0)).isEnd = false →
      Machine.run .crossing {} n ((Machine.fresh default default).restart 0) =
        .running (Machine.crossing n) := fun n h => Step.eq_running h
  have hinstr : ∀ n, (Program.crossing.instruction? (Machine.crossing n).active.ip).isSome →
      Program.crossing.instruction? (Machine.crossing n).active.ip = some _ :=
    fun n h => (Option.some_get! _ h).symm
  have hyields := hrun 4 (by decide +kernel)
  have hreturns := hrun 6 (by decide +kernel)
  have hi := hinstr 4 (by decide +kernel)
  have hj := hinstr 6 (by decide +kernel)
  obtain ⟨-, -, hyield⟩ := Machine.run_protocol .crossing {} 4 0 (.fresh default default)
  obtain ⟨-, -, hret⟩ := Machine.run_protocol .crossing {} 6 0 (.fresh default default)
  obtain ⟨hcoherent, -, -⟩ := Machine.run_protocol .crossing {} 12 0 (.fresh default default)
  exact ⟨_, _, hyields, hi, by decide +kernel, by decide +kernel,
    (hyield _ _ hyields hi).1 (by decide +kernel), hreturns, hj, by decide +kernel,
    ((hret _ _ hreturns hj).2 (by decide +kernel)).1, Step.eq_faulted (by decide +kernel),
    hcoherent⟩

end YieldMachine
