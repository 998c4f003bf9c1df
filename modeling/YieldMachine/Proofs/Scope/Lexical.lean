import YieldMachine.Proofs.Scope.Sharing

/-!
# Lexical machines

A machine is lexical when every place where an activation goes on is well scoped in a
scope that the frames of the activation suit, and every producer runs on the frames of
the activation that spawned it. Functions are well scoped too, in a scope that the frame
they captured suits. So no instruction of a lexical machine misses a frame or a slot.

    Lexical.move      a move leads from a lexical machine to a lexical machine
    Lexical.present   no operand of its next instruction names what is not there
-/

namespace YieldMachine

/-! ## Definitions -/

/-- What is known of the functions that there are, and of the calls that frames belong to. -/
structure Ledger where
  made : Func → Prop
  called : FrameId → Func → Prop

/-- Code goes on at a place in a scope that its frames suit. -/
def Program.Runs (program : Program) (known : Ledger) (heap : Heap) (ip : Nat)
    (frames : Chain) : Prop :=
  ∃ y, program.Scopes program.Outside ip y ∧ frames.Suits known.called heap y

/-- The body of a function is well scoped, with the frame that the function captured around
its own. -/
structure Func.Scoped (program : Program) (made : Func → Prop) (heap : Heap) (f : Func) :
    Prop where
  body : ∃ y : Scope, program.Scopes program.Outside f.entry (max f.params f.frameSize :: y) ∧
    heap.Sized f.captured y[0]?
  made : made f

/-- All activations of a context go on at well-scoped places. -/
structure Context.Placed (program : Program) (known : Ledger) (heap : Heap) (c : Context) :
    Prop where
  here : program.Runs known heap c.ip c.frames
  onDrop : ∀ p, c.pending = some p → program.Runs known heap p.onDrop c.frames
  callers : ∀ r ∈ c.calls, program.Runs known heap r.returnIp (c.frames.shrink r.frameDepth)
  stack : c.Stack (Func.Scoped program known.made heap)

/-- A context and all producers under it are at well-scoped places, and each producer runs
on the frames of the activation that opened its group. -/
inductive Context.Lexical (program : Program) (known : Ledger) (heap : Heap) : Context → Prop
  | intro {c : Context} (placed : c.Placed program known heap)
      (shares : ∀ place p, c.slotAt? place = some p → p.ground.Alike (c.framesAt place.1))
      (producers : ∀ place p, c.slotAt? place = some p → p.Lexical program known heap) :
      Context.Lexical program known heap c

/-- All contexts are at well-scoped places, and a producer runs on the frames of the
consumer that waits for it. -/
structure Machine.Lexical (program : Program) (known : Ledger) (m : Machine) : Prop where
  memory : m.Memory (Func.Scoped program known.made m.heap)
  contexts : ∀ c ∈ m.chain, c.Lexical program known m.heap
  spine : m.chain.IsChain fun d c => d.ground.Alike c.frames

/-- A context is at well-scoped places, and so are all producers under it. -/
structure Context.Scoped (program : Program) (known : Ledger) (heap : Heap) (c : Context) :
    Prop where
  placed : c.Placed program known heap
  producers : ∀ place p, c.slotAt? place = some p → p.Lexical program known heap

/-! ## Places -/

variable {program : Program} {known : Ledger} {heap heap' : Heap} {F : Func → Prop} {i : Instruction}

section

variable {ip t : Nat} {frames frames' : Chain}

theorem Program.Runs.kept (hk : heap.Kept heap') (h : program.Runs known heap ip frames) :
    program.Runs known heap' ip frames := by
  obtain ⟨y, hy, hs⟩ := h
  exact ⟨y, hy, hs.kept hk⟩

theorem Program.Runs.alike (ha : frames'.Alike frames) (h : program.Runs known heap ip frames) :
    program.Runs known heap ip frames' := by
  obtain ⟨y, hy, hs⟩ := h
  exact ⟨y, hy, hs.alike ha⟩

/-- Code goes on where its instruction leads to in the same scope. -/
theorem Program.Runs.leads (h : program.Runs known heap ip frames)
    (hi : program.instruction? ip = some i) (ht : ∀ y, (t, y) ∈ i.leads ip y) :
    program.Runs known heap t frames := by
  obtain ⟨y, hy, hs⟩ := h
  exact ⟨y, (hy.at_outside hi).2 _ (ht y), hs⟩

theorem Func.Scoped.kept (hk : heap.Kept heap') {f : Func} (h : f.Scoped program known.made heap) :
    f.Scoped program known.made heap' := by
  obtain ⟨y, hy, hc⟩ := h.body
  exact ⟨⟨y, hy, hc.kept hk⟩, h.made⟩

/-- A function that is made captures the frame that it is made on. -/
theorem Program.Runs.makes (h : program.Runs known heap ip frames)
    (hi : program.instruction? ip = some i) (he : i.effect = .makeFunction)
    (hmade : known.made (i.made ip frames)) : (i.made ip frames).Scoped program known.made heap := by
  obtain ⟨y, hy, hs⟩ := h
  refine ⟨⟨y, (hy.at_outside hi).2 (Program.jumpTarget ip i.a, _) ?_, hs.own⟩, hmade⟩
  simp [Instruction.leads, he, Instruction.made]

theorem Instruction.leads_of_lands (hl : i.effect.IsLocal) (ht : i.Lands ip t) (y : Scope) :
    (t, y) ∈ i.leads ip y := by
  unfold Instruction.Lands at ht
  unfold Instruction.leads
  split at ht
  · next he => simp [he, ht]
  · next he =>
    rcases ht with rfl | rfl <;> simp [he]
  · next h₁ h₂ =>
    subst ht
    cases he : i.effect <;> rw [he] at hl <;> first
      | exact absurd he h₁
      | exact absurd he h₂
      | exact hl.elim
      | exact List.mem_cons_self

end

/-! ## Contexts -/

section

variable {c d : Context} {t : Nat}

theorem Context.Stack.kept (hk : heap.Kept heap') (h : c.Stack (Func.Scoped program known.made heap)) :
    c.Stack (Func.Scoped program known.made heap') :=
  fun v hv => (h v hv).mono fun _ hf => hf.kept hk

namespace Context.Placed

theorem kept (hk : heap.Kept heap') (h : c.Placed program known heap) : c.Placed program known heap' :=
  ⟨h.here.kept hk, fun p hp => (h.onDrop p hp).kept hk, fun r hr => (h.callers r hr).kept hk,
    h.stack.kept hk⟩

/-- Groups do not matter for the places of a context. -/
theorem of_loops (h : c.Placed program known heap) (loops : Array Group) :
    Context.Placed program known heap { c with loops } :=
  ⟨h.here, h.onDrop, h.callers, h.stack⟩

theorem moved (h : c.Placed program known heap) (ht : program.Runs known heap t c.frames) :
    (c.moved t).Placed program known heap :=
  ⟨ht, h.onDrop, h.callers, h.stack⟩

theorem swap (h : c.Placed program known heap) (n : Nat) {vs : Array Value}
    (hv : ∀ v ∈ vs, v.AllFunctions (Func.Scoped program known.made heap)) :
    (c.swap n vs).Placed program known heap :=
  ⟨h.here, h.onDrop, h.callers, h.stack.swap n hv⟩

theorem drop (h : c.Placed program known heap) (n : Nat) : (c.swap n #[]).Placed program known heap :=
  h.swap n fun _ hv => absurd hv (Array.not_mem_empty _)

theorem awake (h : c.Placed program known heap) : c.awake.Placed program known heap :=
  ⟨h.here, nofun, h.callers, h.stack⟩

theorem waiting {p : Pending} (h : c.Placed program known heap)
    (hp : program.Runs known heap p.onDrop c.frames) : (c.waiting p).Placed program known heap :=
  ⟨h.here, fun _ hq => Option.some.inj hq ▸ hp, h.callers, h.stack⟩

theorem start {frames : Chain} (h : program.Runs known heap t frames) :
    (Context.start t frames).Placed program known heap :=
  ⟨h, nofun, fun _ hr => absurd hr (Array.not_mem_empty _),
    fun _ hv => absurd hv (Array.not_mem_empty _)⟩

theorem openSlot (h : c.Placed program known heap) : c.openSlot.Placed program known heap := by
  rw [Context.openSlot_eq]
  exact h.of_loops _

theorem setSlot (h : c.Placed program known heap) (slot : Nat) (content : Option Context) :
    (c.setSlot slot content).Placed program known heap := by
  rw [Context.setSlot_eq]
  exact h.of_loops _

theorem closeGroup (h : c.Placed program known heap) : c.closeGroup.Placed program known heap := by
  rw [Context.closeGroup_eq]
  exact h.of_loops _

theorem enter {f : Func} {b : Nat} {id : FrameId} (h : c.Placed program known heap) (hn : c.Nested)
    (hp : c.pending = none) (hbody : program.Runs known heap f.entry (f.frames c.frames id)) :
    (c.enter f b id).Placed program known heap := by
  rw [Context.enter_eq]
  refine ⟨hbody, fun p hq => ?_, fun r hr => ?_, h.stack.shrink b⟩
  · dsimp only at hq
    rw [hp] at hq
    cases hq
  · rcases Array.mem_push.1 hr with hr | rfl
    · have hrun := h.callers r hr
      rwa [← f.shrink_frames id (Nat.le_of_lt (hn.below r hr))] at hrun
    · dsimp only
      rw [f.frames_shrink]
      exact h.here

theorem leave {r : CallRecord} (h : c.Placed program known heap) (hn : c.Nested)
    (hp : c.pending = none) (hr : c.calls.back? = some r) :
    ((c.leave r).moved r.returnIp).Placed program known heap := by
  rw [Context.leave_eq]
  refine ⟨h.callers r (Array.mem_of_back? hr), fun p hq => ?_, fun s hs => ?_,
    h.stack.shrink r.stackBase⟩
  · dsimp only [Context.moved] at hq
    rw [hp] at hq
    cases hq
  · have hmem : s ∈ c.calls.pop.toList := Array.mem_def.1 hs
    dsimp only [Context.moved]
    rw [Context.shrink_shrink (Nat.le_of_lt (hn.lt_back hr s hmem))]
    refine h.callers s (Array.mem_def.2 ?_)
    rw [Context.calls_eq_push hr]
    exact List.mem_append_left _ hmem

end Context.Placed

namespace Context.Lexical

theorem shares (h : c.Lexical program known heap) : c.Shares := by
  induction h with
  | intro _ hs _ ih => exact .intro hs ih

theorem inScope (h : c.Lexical program known heap) : c.Scoped program known heap := by
  cases h with
  | intro hp _ hb => exact ⟨hp, hb⟩

/-- By induction on the tree of producers. -/
theorem kept (hk : heap.Kept heap') (h : c.Lexical program known heap) : c.Lexical program known heap' := by
  induction h with
  | intro hp hs _ ih => exact .intro (hp.kept hk) hs ih

theorem start {frames : Chain} (h : program.Runs known heap t frames) :
    (Context.start t frames).Lexical program known heap :=
  .intro (.start h) (Context.Shares.start t frames).own fun _ _ hp =>
    absurd (Context.slot_lt hp) (Nat.not_lt_zero _)

end Context.Lexical

namespace Context.Scoped

theorem toLexical (h : c.Scoped program known heap) (hs : c.Shares) : c.Lexical program known heap :=
  .intro h.placed hs.own h.producers

/-- A context that goes on with no producer more. -/
theorem of_covers (h : c.Scoped program known heap) (hd : d.Placed program known heap)
    (hcov : Context.Covers c d) : d.Scoped program known heap :=
  ⟨hd, fun place p hp => h.producers place p (hcov place p hp)⟩

theorem of_loops (h : c.Scoped program known heap) (hd : d.Placed program known heap)
    (hloops : d.loops = c.loops) : d.Scoped program known heap :=
  h.of_covers hd (.of_loops hloops)

theorem park {p : Context} (h : c.Scoped program known heap) (slot : Nat)
    (hp : p.Lexical program known heap) : (c.setSlot slot (some p)).Scoped program known heap := by
  refine ⟨h.placed.setSlot _ _, fun place q hq => ?_⟩
  rcases Context.slotAt?_setSlot hq with ⟨-, hq⟩ | ⟨-, hq⟩
  · cases hq
    exact hp
  · exact h.producers place q hq

/-- A body that is entered is well scoped on the frame that the call makes. -/
theorem enter {f : Func} {args : Array Value} {b : Nat}
    (h : c.Scoped program known (heap.push (Frame.ofArgs args f.frameSize))) (hn : c.Nested)
    (hp : c.pending = none)
    (hf : f.Scoped program known.made (heap.push (Frame.ofArgs args f.frameSize)))
    (harity : args.size = f.params) (hcalled : known.called heap.size f) :
    (c.enter f b heap.size).Scoped program known (heap.push (Frame.ofArgs args f.frameSize)) := by
  obtain ⟨y, hy, hcaptured⟩ := hf.body
  have hlt : heap.size < (heap.push (Frame.ofArgs args f.frameSize)).size := by
    rw [Array.size_push]
    exact Nat.lt_succ_self _
  have hbody : program.Runs known (heap.push (Frame.ofArgs args f.frameSize)) f.entry
      (f.frames c.frames heap.size) :=
    ⟨_, hy, Func.suits_frames heap.size hlt (Heap.frame_push _ _) harity hcaptured hcalled⟩
  exact h.of_loops (h.placed.enter hn hp hbody) (by rw [Context.enter_eq])

/-- A caller goes on behind its call, with the value that is returned. -/
theorem leave {r : CallRecord} {vs : Array Value} (h : c.Scoped program known heap)
    (hn : c.Nested) (hp : c.pending = none) (hr : c.calls.back? = some r)
    (hv : ∀ v ∈ vs, v.AllFunctions (Func.Scoped program known.made heap)) :
    (((c.leave r).moved r.returnIp).swap 0 vs).Scoped program known heap :=
  h.of_covers ((h.placed.leave hn hp hr).swap 0 hv) (Context.Covers.leave r)

end Context.Scoped

end

/-! ## Machines -/

namespace Machine.Lexical

variable {m m' : Machine} {limits : Limits}

theorem active (h : m.Lexical program known) : m.active.Scoped program known m.heap :=
  (h.contexts _ List.mem_cons_self).inScope

theorem sharing (h : m.Lexical program known) : m.Sharing :=
  ⟨fun c hc => (h.contexts c hc).shares, h.spine⟩

theorem of_scoped (hmem : m.Memory (Func.Scoped program known.made m.heap)) (hs : m.Sharing)
    (h : ∀ c ∈ m.chain, c.Scoped program known m.heap) : m.Lexical program known :=
  ⟨hmem, fun c hc => (h c hc).toLexical (hs.contexts c hc), hs.spine⟩

/-- A slot that the next instruction names is there. -/
theorem present {cause : Cause} {o : Operand} (h : m.Lexical program known)
    (hi : program.instruction? m.active.ip = some i) (ho : o ∈ [i.a, i.b, i.c]) :
    ¬ Missing m.active.frames m.heap o cause := by
  obtain ⟨y, hy, hs⟩ := h.active.placed.here
  exact hs.not_missing ((hy.at_outside hi).1 o ho)

/-- A lexical machine can rely on its functions being well scoped. -/
theorem ready (h : m.Lexical program known) (hs : m.Sound program)
    (hi : program.instruction? m.active.ip = some i)
    (hmade : i.effect = .makeFunction → known.made (i.made m.active.ip m.active.frames)) :
    m.Ready (Func.Scoped program known.made m.heap) i := by
  obtain ⟨-, hready⟩ := hs.ready hi
  exact ⟨hready.takes, h.active.placed.stack, h.memory,
    fun he => h.active.placed.here.makes hi he (hmade he), hready.spawns, hready.closes,
    hready.resumes, hready.yields, hready.ends, hready.returns⟩

/-- What a move leads to is lexical again. -/
theorem move (h : m.Lexical program known) (hs : m.Sound program) (hco : m.Coherent)
    (hi : program.instruction? m.active.ip = some i)
    (hcalled : ∀ f, i.effect = .call → m.value? program i.b = some (.function f) →
      m.active.calls.size < m'.active.calls.size → known.called m.heap.size f)
    (hm : Moves program (Func.Scoped program known.made m.heap) i m m') : m'.Lexical program known := by
  obtain ⟨hmem, hmove⟩ := hm
  have hk := hmove.kept
  have hfuncs : ∀ v : Value, v.AllFunctions (Func.Scoped program known.made m.heap) →
      v.AllFunctions (Func.Scoped program known.made m'.heap) := fun v hv => hv.mono fun _ hf => hf.kept hk
  refine of_scoped (hmem.mono fun _ hf => hf.kept hk) (h.sharing.move hs hco hi hmove) ?_
  have hscoped : ∀ c ∈ m.chain, c.Scoped program known m'.heap := fun c hc =>
    ((h.contexts c hc).kept hk).inScope
  obtain ⟨ha, hcs⟩ := List.forall_mem_cons.1 hscoped
  have hnested : ∀ c ∈ m.chain, c.Nested := fun c hc =>
    hco.nested c hc c (by rw [Context.tree_eq]; exact List.mem_cons_self)
  have hleads : ∀ {t}, (∀ y, (t, y) ∈ i.leads m.active.ip y) →
      program.Runs known m'.heap t m.active.frames := ha.placed.here.leads hi
  have hnext : (∀ y, (m.active.ip + 1, y) ∈ i.leads m.active.ip y) →
      (m.active.moved (m.active.ip + 1)).Placed program known m'.heap :=
    fun ht => ha.placed.moved (hleads ht)
  cases hmove with
  | @stay c cs t vs g g' hp hp' co co' j j' hl ht hsize hv hkept =>
    have hlands := Instruction.leads_of_lands hl ht
    exact List.forall_mem_cons.2 ⟨ha.of_loops ((ha.placed.moved (hleads hlands)).swap _
      fun v hmem => hfuncs v (hv v hmem)) rfl, hcs⟩
  | @enter c cs f args g hp co j j' he hf hcallee harity =>
    have hn := hnested c List.mem_cons_self
    have hplaced := (hnext fun y => by simp [Instruction.leads, he]).drop i.b.cells
    refine List.forall_mem_cons.2 ⟨(ha.of_loops hplaced rfl).enter (hn.of_eq rfl rfl)
      hs.active.pending (hf.kept hk) harity (hcalled f he hcallee ?_), hcs⟩
    rw [Context.enter_eq]
    simp only [Array.size_push]
    exact Nat.lt_succ_self _
  | @ret c c' cs cs' gone r v g hp co j j' he hval hv hl hr =>
    have hv' : ∀ w ∈ #[v], w.AllFunctions (Func.Scoped program known.made hp) := by
      simpa using hfuncs v hv
    obtain ⟨-, ⟨rfl, rfl⟩ | ⟨-, k, consumer, hget, rfl, hcs', -⟩⟩ :=
      Action.leaveProducers_eq_some hl
    · -- the place behind the return does not matter for the activation that is left
      have hplace : (((c.moved (c.ip + 1)).swap i.takes #[]).leave r).moved r.returnIp =
          ((c.swap i.takes #[]).leave r).moved r.returnIp := by
        rw [Context.leave_eq, Context.leave_eq]
        rfl
      have hn := hnested c List.mem_cons_self
      have hleft := (ha.of_loops (ha.placed.drop i.takes) rfl).leave (hn.of_eq rfl rfl)
        hs.active.pending hr hv'
      exact List.forall_mem_cons.2 ⟨hplace ▸ hleft, hcs⟩
    · have hsuffix := cons_inward_suffix hget hcs'
      have hconsumer : consumer ∈ inward cs := hsuffix.subset List.mem_cons_self
      have hn := hnested consumer (List.mem_cons_of_mem _ hconsumer)
      have hl := hcs consumer hconsumer
      have hleft := (hl.of_loops hl.placed.awake rfl).leave (hn.of_eq rfl rfl) rfl hr hv'
      exact List.forall_mem_cons.2 ⟨hleft,
        fun d hd => hcs d (hsuffix.subset (List.mem_cons_of_mem _ hd))⟩
  | @openGroup c cs g hp co j j' he =>
    have hplaced := hnext fun y => by simp [Instruction.leads, he]
    exact List.forall_mem_cons.2 ⟨ha.of_covers (hplaced.of_loops _) .openGroup, hcs⟩
  | @spawn c cs group g hp co j j' he hg =>
    have hframes := c.frames_openSlot
    have hwaits := ((ha.placed.openSlot.moved (t := Program.jumpTarget c.ip i.a)
      (hframes.symm ▸ hleads fun y => by simp [Instruction.leads, he])).waiting
        (p := ⟨group.size, Program.jumpTarget c.ip i.b⟩)
        (hframes.symm ▸ hleads fun y => by simp [Instruction.leads, he]))
    have hstart : program.Runs known hp (c.ip + 1) c.frames.addressable :=
      (hleads fun y => by simp [Instruction.leads, he]).alike c.frames.addressable_alike
    rw [Machine.chain, inward_push]
    exact List.forall_mem_cons.2 ⟨(Context.Lexical.start hstart).inScope, List.forall_mem_cons.2
      ⟨ha.of_covers hwaits (Context.Covers.openSlot (c := c)), hcs⟩⟩
  | @yield c consumer cs p s v g hp co j j' he hval hv hb hwaits hslot =>
    have hv' : ∀ w ∈ #[v], w.AllFunctions (Func.Scoped program known.made hp) := by
      simpa using hfuncs v hv
    rw [inward_eq_cons.2 ⟨hb, rfl⟩] at hcs
    obtain ⟨hc, hcs⟩ := List.forall_mem_cons.1 hcs
    have hplaced := ((hnext fun y => by simp [Instruction.leads, he]).drop i.takes).awake
    have hshares : (((c.moved (c.ip + 1)).swap i.takes #[]).awake).Shares :=
      (h.sharing.contexts _ List.mem_cons_self).of_loops rfl rfl rfl
    have hput := hc.park p.slot ((ha.of_loops hplaced rfl).toLexical hshares)
    exact List.forall_mem_cons.2 ⟨hput.of_loops (hput.placed.awake.swap 0 hv') rfl, hcs⟩
  | @resume c producer cs g hp co j j' he hslot =>
    have hproducer := (ha.producers _ _ (Context.slotAt?_of_slot? hslot)).inScope
    have hframes : ((c.moved (c.ip + 1)).setSlot i.a.address.toNat none).frames = c.frames :=
      (c.moved (c.ip + 1)).frames_setSlot _ _
    have hdrop : program.Runs known hp (Program.jumpTarget c.ip i.b) c.frames :=
      hleads fun y => by simp [Instruction.leads, he]
    have hwaits := ((hnext fun y => by simp [Instruction.leads, he]).setSlot
      i.a.address.toNat none).waiting
        (p := ⟨i.a.address.toNat, Program.jumpTarget c.ip i.b⟩) (hframes.symm ▸ hdrop)
    rw [Machine.chain, inward_push]
    exact List.forall_mem_cons.2 ⟨hproducer.of_loops hproducer.placed.awake rfl,
      List.forall_mem_cons.2
        ⟨ha.of_covers hwaits (Context.Covers.take (c := c.moved (c.ip + 1))), hcs⟩⟩
  | @endIteration c consumer cs p g hp co j j' he hb hwaits =>
    rw [inward_eq_cons.2 ⟨hb, rfl⟩] at hcs
    obtain ⟨hc, hcs⟩ := List.forall_mem_cons.1 hcs
    exact List.forall_mem_cons.2
      ⟨hc.of_loops (hc.placed.moved (hc.placed.onDrop p hwaits)).awake rfl, hcs⟩
  | @closeGroup c cs group g hp co j j' he hg =>
    have hplaced := hnext fun y => by simp [Instruction.leads, he]
    exact List.forall_mem_cons.2 ⟨ha.of_covers hplaced.closeGroup
      (Context.Covers.closeGroup (c := c.moved (c.ip + 1))), hcs⟩

end Machine.Lexical

end YieldMachine
