import YieldMachine.Proofs.Suspension.Coherent

/-!
# Machines within their limits

Whatever words a program consists of, no context of a machine that runs it goes past a
limit, be it active, a consumer that waits or a producer that is parked. The frames need
no limit of their own: a call adds at most the frame that its function captured and one
for its slots, and a producer starts with two.

    run_bounded   every machine of a run from its start is within the limits
-/

namespace YieldMachine

/-! ## Definitions -/

/-- A context is within the limits, and each of its calls can go back to as many frames as
the calls before it may have. -/
structure Context.Bounded (limits : Limits) (c : Context) : Prop where
  stack : c.stack.size ≤ limits.maxStack
  calls : c.calls.size ≤ limits.maxCalls
  frames : c.frames.size ≤ 2 * c.calls.size + 2
  returns : ∀ k r, c.calls[k]? = some r → r.frameDepth ≤ 2 * k + 2

/-- A context is within the limits with all producers parked under it. -/
def Context.Contained (limits : Limits) (c : Context) : Prop :=
  ∀ d ∈ c.tree, d.Bounded limits

/-- At most as many consumers wait as the limits allow, and all contexts are within them. -/
structure Machine.Bounded (limits : Limits) (m : Machine) : Prop where
  depth : m.consumers.size ≤ limits.maxContexts
  contexts : ∀ c ∈ m.chain, c.Contained limits

/-- An action leads to a machine within the limits, and leaves one when it fails. -/
def Action.Respects {α : Type} (limits : Limits) (x : Action α) (m : Machine) : Prop :=
  x.Leads m (fun _ m' => m'.Bounded limits) fun _ m' => m'.Bounded limits

/-! ## Contexts -/

section

variable {limits : Limits} {c d p : Context} {r : CallRecord} {k : Nat}

/-- Entering a body adds the captured frame, if there is one, and the frame of the call. -/
theorem Func.size_frames_le (f : Func) (frames : Chain) (id : FrameId) :
    (f.frames frames id).size ≤ frames.size + 2 := by
  unfold Func.frames
  split
  · simp only [Array.size_push]
    omega
  · simp only [Array.size_push]
    omega

theorem Chain.size_addressable (chain : Chain) : (Chain.addressable chain).size ≤ 2 := by
  rw [Chain.addressable, Array.size_extract]
  omega

namespace Context

theorem Bounded.of_eq (h : c.Bounded limits) (hs : d.stack.size ≤ limits.maxStack)
    (hc : d.calls = c.calls) (hf : d.frames = c.frames) : d.Bounded limits := by
  constructor
  · exact hs
  · rw [hc]
    exact h.calls
  · rw [hc, hf]
    exact h.frames
  · rw [hc]
    exact h.returns

theorem Bounded.start (limits : Limits) (ip : Nat) {frames : Chain} (h : frames.size ≤ 2) :
    (Context.start ip frames).Bounded limits := by
  constructor
  · exact Nat.zero_le _
  · exact Nat.zero_le _
  · simpa [Context.start] using h
  · intro k r hr
    simp [Context.start] at hr

theorem Bounded.enter (h : c.Bounded limits) (hroom : c.calls.size < limits.maxCalls) (f : Func)
    (base : Nat) (id : FrameId) : (c.enter f base id).Bounded limits := by
  have hframes := f.size_frames_le c.frames id
  have hbefore := h.frames
  have hstack := h.stack
  rw [Context.enter_eq]
  constructor
  · simp only [Array.size_shrink]
    omega
  · simp only [Array.size_push]
    omega
  · simp only [Array.size_push]
    omega
  · intro k r hr
    simp only [Array.getElem?_push] at hr
    split at hr
    · next hk =>
      cases hr
      rw [hk]
      exact hbefore
    · exact h.returns k r hr

/-- The frames that a call goes back to are as few as those before it were. -/
theorem Bounded.leave (h : c.Bounded limits) (hr : c.calls.back? = some r) :
    (c.leave r).Bounded limits := by
  rw [Array.back?_eq_getElem?] at hr
  have hreturn := h.returns _ r hr
  have hstack := h.stack
  have hcalls := h.calls
  rw [Context.leave_eq]
  constructor
  · simp only [Array.size_shrink]
    omega
  · simp only [Array.size_pop]
    omega
  · simp only [Array.size_shrink, Array.size_pop]
    omega
  · intro k s hs
    simp only [Array.getElem?_pop] at hs
    split at hs
    · exact h.returns k s hs
    · cases hs

/-! ## Trees -/

theorem contained_iff :
    c.Contained limits ↔ c.Bounded limits ∧ ∀ d ∈ c.parked, d.Bounded limits := by
  rw [Contained, tree_eq, List.forall_mem_cons]

theorem Contained.root (h : c.Contained limits) : c.Bounded limits :=
  (contained_iff.1 h).1

theorem Contained.of_parked (h : c.Contained limits) (hd : d.Bounded limits)
    (hp : ∀ p ∈ d.parked, p ∈ c.parked) : d.Contained limits := by
  rw [contained_iff]
  constructor
  · exact hd
  · intro p hmem
    exact (contained_iff.1 h).2 p (hp p hmem)

/-- The stack may change as long as it stays within its limit, and so may the place. -/
theorem Contained.of_eq (h : c.Contained limits) (hs : d.stack.size ≤ limits.maxStack)
    (hc : d.calls = c.calls) (hf : d.frames = c.frames) (hl : d.loops = c.loops) :
    d.Contained limits := by
  apply h.of_parked (h.root.of_eq hs hc hf)
  intro p hp
  rwa [parked_of_loops hl] at hp

theorem Contained.start (limits : Limits) (ip : Nat) {frames : Chain} (h : frames.size ≤ 2) :
    (Context.start ip frames).Contained limits := by
  rw [contained_iff]
  constructor
  · exact .start limits ip h
  · intro p hp
    cases hp

theorem Contained.moved (h : c.Contained limits) (ip : Nat) : (c.moved ip).Contained limits :=
  h.of_eq h.root.stack rfl rfl rfl

theorem Contained.awake (h : c.Contained limits) : c.awake.Contained limits :=
  h.of_eq h.root.stack rfl rfl rfl

theorem Contained.waiting (h : c.Contained limits) (pending : Pending) :
    (c.waiting pending).Contained limits :=
  h.of_eq h.root.stack rfl rfl rfl

theorem Contained.enter (h : c.Contained limits) (hroom : c.calls.size < limits.maxCalls)
    (f : Func) (base : Nat) (id : FrameId) : (c.enter f base id).Contained limits := by
  apply h.of_parked (h.root.enter hroom f base id)
  intro p hp
  rwa [parked_enter] at hp

theorem Contained.leave (h : c.Contained limits) (hr : c.calls.back? = some r) :
    (c.leave r).Contained limits := by
  apply h.of_parked (h.root.leave hr)
  intro p hp
  rw [parked_leave r]
  exact List.mem_append_left _ hp

theorem Contained.openGroup (h : c.Contained limits) :
    ({ c with loops := c.loops.push #[] } : Context).Contained limits := by
  apply h.of_parked
  · exact h.root.of_eq h.root.stack rfl rfl
  · intro p hp
    rwa [parked_openGroup] at hp

theorem Contained.closeGroup {group : Group} (h : c.Contained limits)
    (hg : c.loops.back? = some group) : c.closeGroup.Contained limits := by
  apply h.of_parked
  · rw [closeGroup_eq]
    exact h.root.of_eq h.root.stack rfl rfl
  · intro p hp
    rw [parked_closeGroup hg]
    exact List.mem_append_left _ hp

theorem Contained.openSlot {group : Group} (h : c.Contained limits)
    (hg : c.loops.back? = some group) : c.openSlot.Contained limits := by
  apply h.of_parked
  · rw [openSlot_eq]
    exact h.root.of_eq h.root.stack rfl rfl
  · intro p hp
    rwa [parked_openSlot hg] at hp

/-- What is parked when something was put into a slot was parked before or comes with it. -/
theorem mem_parked_setSlot {content slot : Option Context} (hk : c.slot? k = some slot)
    (hd : d ∈ (c.setSlot k content).parked) :
    d ∈ c.parked ∨ ∃ p, content = some p ∧ d ∈ p.tree := by
  obtain ⟨group, hg, -⟩ := Option.bind_eq_some_iff.1 hk
  rw [parked_setSlot hg] at hd
  rw [parked_back hg]
  rcases List.mem_append.1 hd with hd | hd
  · exact .inl (List.mem_append_left _ hd)
  · obtain ⟨p, hp, hd⟩ := Slots.mem_parked.1 hd
    rcases List.mem_or_eq_of_mem_set hp with hp | hp
    · exact .inl (List.mem_append_right _ (Slots.mem_parked.2 ⟨p, hp, hd⟩))
    · exact .inr ⟨p, hp.symm, hd⟩

theorem Contained.setSlot {content slot : Option Context} (h : c.Contained limits)
    (hk : c.slot? k = some slot) (hp : ∀ p, content = some p → p.Contained limits) :
    (c.setSlot k content).Contained limits := by
  rw [contained_iff]
  constructor
  · rw [setSlot_eq]
    exact h.root.of_eq h.root.stack rfl rfl
  · intro d hd
    rcases mem_parked_setSlot hk hd with hd | ⟨p, hc, hd⟩
    · exact (contained_iff.1 h).2 d hd
    · exact hp p hc d hd

/-- A producer that is parked under a contained context is contained itself. -/
theorem Contained.slot (h : c.Contained limits) (hk : c.slot? k = some (some p)) :
    p.Contained limits := by
  intro d hd
  refine (contained_iff.1 h).2 d ((parked_unpark hk).mem_iff.2 ?_)
  exact List.mem_append_left _ hd

end Context

end

/-! ## Machines -/

section

variable {limits : Limits} {m m' : Machine} {c : Context}

namespace Machine

theorem bounded_iff : m.Bounded limits ↔ m.consumers.size ≤ limits.maxContexts ∧
    m.active.Contained limits ∧ ∀ c ∈ m.consumers, c.Contained limits := by
  constructor
  · intro h
    obtain ⟨hactive, hconsumers⟩ := List.forall_mem_cons.1 h.contexts
    refine ⟨h.depth, hactive, ?_⟩
    intro c hc
    exact hconsumers c (mem_inward.2 hc)
  · rintro ⟨hdepth, hactive, hconsumers⟩
    refine ⟨hdepth, List.forall_mem_cons.2 ⟨hactive, ?_⟩⟩
    intro c hc
    exact hconsumers c (mem_inward.1 hc)

theorem Bounded.active (h : m.Bounded limits) : m.active.Contained limits :=
  (bounded_iff.1 h).2.1

theorem Bounded.consumer (h : m.Bounded limits) (hc : c ∈ m.consumers) : c.Contained limits :=
  (bounded_iff.1 h).2.2 c hc

/-- Only the contexts count. -/
theorem Bounded.of_active (h : m.Bounded limits) (ha : m'.active.Contained limits)
    (hc : m'.consumers = m.consumers) : m'.Bounded limits := by
  rw [bounded_iff, hc]
  exact ⟨h.depth, ha, fun _ => h.consumer⟩

theorem Bounded.of_eq (h : m.Bounded limits) (ha : m'.active = m.active)
    (hc : m'.consumers = m.consumers) : m'.Bounded limits :=
  h.of_active (ha ▸ h.active) hc

/-- A consumer begins to wait. -/
theorem Bounded.push (h : m.Bounded limits) (hroom : m.consumers.size < limits.maxContexts)
    (ha : m'.active.Contained limits) (hc : c.Contained limits)
    (hm : m'.consumers = m.consumers.push c) : m'.Bounded limits := by
  rw [bounded_iff, hm]
  refine ⟨?_, ha, ?_⟩
  · rw [Array.size_push]
    omega
  · intro d hd
    rcases Array.mem_push.1 hd with hd | rfl
    · exact h.consumer hd
    · exact hc

/-- Consumers wait no longer. -/
theorem Bounded.take {n : Nat} (h : m.Bounded limits) (ha : m'.active.Contained limits)
    (hm : m'.consumers.toList = m.consumers.toList.take n) : m'.Bounded limits := by
  have hdepth := h.depth
  rw [bounded_iff]
  refine ⟨?_, ha, ?_⟩
  · rw [← Array.length_toList, hm, List.length_take, Array.length_toList]
    omega
  · intro d hd
    rw [Array.mem_def, hm] at hd
    exact h.consumer (Array.mem_def.2 (List.mem_of_mem_take hd))

theorem Bounded.pop (h : m.Bounded limits) (ha : m'.active.Contained limits)
    (hm : m'.consumers = m.consumers.pop) : m'.Bounded limits := by
  apply h.take ha
  rw [hm, Array.toList_pop, List.dropLast_eq_take]

theorem Bounded.goto (h : m.Bounded limits) (ip : Nat) : (m.goto ip).Bounded limits :=
  h.of_active (h.active.moved ip) rfl

theorem Bounded.cut (h : m.Bounded limits) (n : Nat) : (m.cut n).Bounded limits := by
  have hstack := h.active.root.stack
  refine h.of_active (h.active.of_eq ?_ rfl rfl rfl) rfl
  have hsize := m.active.size_swap n #[]
  rw [Array.size_empty] at hsize
  rw [Machine.cut, hsize]
  omega

theorem Bounded.record (h : m.Bounded limits) (e : Event) : (m.record e).Bounded limits :=
  h.of_eq rfl rfl

theorem Bounded.restart (limits : Limits) (m : Machine) (start : Nat) :
    (m.restart start).Bounded limits := by
  rw [bounded_iff]
  refine ⟨Nat.zero_le _, .start limits start (Nat.zero_le 2), ?_⟩
  intro c hc
  cases Array.not_mem_empty c hc

end Machine

end

/-! ## Actions -/

namespace Action

variable {program : Program} {limits : Limits} {α β : Type} {x : Action α} {f : α → Action β}
  {m m' : Machine} {o : Operand} {v : Value} {i : Instruction} {ip : Nat}

theorem Respects.bind (hx : Respects limits x m)
    (hf : ∀ a m', m'.Bounded limits → Respects limits (f a) m') : Respects limits (x >>= f) m :=
  Leads.bind hx hf

theorem respects_pure (a : α) (hm : m.Bounded limits) : Respects limits (pure a) m :=
  hm

theorem respects_throw (cause : Cause) (hm : m.Bounded limits) :
    Respects limits (throw cause : Action α) m :=
  hm

theorem respects_set (h : m'.Bounded limits) : Respects limits (set m') m :=
  h

theorem respects_modify {f : Machine → Machine} (h : (f m).Bounded limits) :
    Respects limits (modify f) m :=
  h

theorem record_respects (e : Event) (hm : m.Bounded limits) : Respects limits (record e) m :=
  respects_modify (hm.record e)

theorem goto_respects (ip : Nat) (hm : m.Bounded limits) : Respects limits (goto ip) m :=
  respects_modify (hm.goto ip)

theorem truncate_respects (height : Nat) (hm : m.Bounded limits) :
    Respects limits (truncate height) m := by
  have hstack := hm.active.root.stack
  refine respects_modify (hm.of_active (hm.active.of_eq ?_ rfl rfl rfl) rfl)
  simp only [Array.size_shrink]
  omega

/-- A push finds room or fails. -/
theorem push_respects (v : Value) (hm : m.Bounded limits) : Respects limits (push limits v) m := by
  refine Leads.get ?_
  split
  · exact respects_throw _ hm
  · next hroom =>
    refine respects_set (hm.of_active (hm.active.of_eq ?_ rfl rfl rfl) rfl)
    simp only [Array.size_push]
    omega

theorem target_same (program : Program) (ip : Nat) (o : Operand) (hm : m.Bounded limits) :
    Leads (target program ip o) m (fun _ m' => m' = m) (fun _ m' => m'.Bounded limits) := by
  unfold target
  dsimp only
  split
  · exact Leads.of_ok rfl rfl
  · exact Leads.of_error rfl hm

theorem target_respects (program : Program) (ip : Nat) (o : Operand) (hm : m.Bounded limits) :
    Respects limits (target program ip o) m := by
  apply (target_same program ip o hm).mono
  · rintro t _ rfl
    exact hm
  · intro cause m' hm'
    exact hm'

theorem fetch_respects (program : Program) (o : Operand) (hm : m.Bounded limits) :
    Respects limits (fetch program o) m := by
  apply (fetch_any program m o).mono
  · rintro v _ ⟨rfl, -⟩
    exact hm.cut _
  · rintro cause _ ⟨rfl, -⟩
    exact hm

theorem writeSlot_respects {depth : Nat} (ho : o.depth? = some depth) (v : Value)
    (hm : m.Bounded limits) : Respects limits (writeSlot depth o.address v) m := by
  apply (writeSlot_leads ho m.memory_any v.allFunctions_any).mono
  · rintro _ _ ⟨heap, rfl, -⟩
    exact hm.of_eq rfl rfl
  · rintro cause _ ⟨-, rfl⟩
    exact hm

theorem store_respects (program : Program) (o : Operand) (v : Value) (hm : m.Bounded limits) :
    Respects limits (store program limits o v) m := by
  obtain ⟨mode, address⟩ := o
  cases mode with
  | immediate | data => exact respects_throw _ hm
  | stack => exact push_respects v hm
  | frame => exact writeSlot_respects (o := ⟨.frame, address⟩) rfl v hm
  | closure => exact writeSlot_respects (o := ⟨.closure, address⟩) rfl v hm
  | global =>
    refine Leads.bind (globalName_any.mono (fun _ _ h => h) ?_) ?_
    · rintro cause _ ⟨-, rfl⟩
      exact hm
    · rintro name _ ⟨-, rfl⟩
      exact respects_modify (hm.of_eq rfl rfl)

/-! ## Instructions of one context -/

theorem unary_respects (f : Value → Value) (hm : m.Bounded limits) :
    Respects limits (unary program limits i f) m := by
  apply (fetch_respects program i.b hm).bind
  intro v m₁ hm₁
  exact store_respects program i.a _ hm₁

theorem binary_respects (f : Value → Value → Value) (hm : m.Bounded limits) :
    Respects limits (binary program limits i f) m := by
  apply (fetch_respects program i.c hm).bind
  intro right m₁ hm₁
  apply (fetch_respects program i.b hm₁).bind
  intro left m₂ hm₂
  exact store_respects program i.a _ hm₂

theorem slice_respects (hm : m.Bounded limits) : Respects limits (slice program limits i) m := by
  apply (fetch_respects program i.c hm).bind
  intro stop m₁ hm₁
  apply (fetch_respects program i.b hm₁).bind
  intro start m₂ hm₂
  apply (fetch_respects program i.a hm₂).bind
  intro target m₃ hm₃
  exact push_respects _ hm₃

theorem makeArray_respects (hm : m.Bounded limits) :
    Respects limits (makeArray program limits i) m := by
  refine Leads.get ?_
  dsimp only
  split
  · apply (truncate_respects _ hm).bind
    intro _ m₁ hm₁
    exact store_respects program i.a _ hm₁
  · exact respects_throw _ hm

theorem jumpIfFalse_respects (hm : m.Bounded limits) :
    Respects limits (jumpIfFalse program ip i) m := by
  apply (fetch_respects program i.b hm).bind
  intro v m₁ hm₁
  split
  · apply (target_respects program ip i.a hm₁).bind
    intro t m₂ hm₂
    exact goto_respects t hm₂
  · exact respects_pure _ hm₁
  · exact respects_throw _ hm₁

theorem readLine_respects (hm : m.Bounded limits) :
    Respects limits (readLine program limits i) m := by
  refine Leads.bind (P := fun _ m' => m'.Bounded limits) ?_ ?_
  · exact Leads.of_ok rfl (hm.of_eq rfl rfl)
  · intro line m₁ hm₁
    exact store_respects program i.a _ hm₁

theorem write_respects (ending : String) (hm : m.Bounded limits) :
    Respects limits (write program limits i ending) m := by
  apply (fetch_respects program i.b hm).bind
  intro v m₁ hm₁
  refine Respects.bind (respects_modify (hm₁.of_eq rfl rfl)) ?_
  intro _ m₂ hm₂
  exact store_respects program i.a _ hm₂

theorem makeFunction_respects (a b c : Operand) (hm : m.Bounded limits) :
    Respects limits (makeFunction program limits ip a b c) m := by
  apply (target_respects program ip a hm).bind
  intro start m₁ hm₁
  exact Leads.get (push_respects _ hm₁)

/-! ## Calls -/

theorem refuse_respects (base : Nat) (result : Value) (hm : m.Bounded limits) :
    Respects limits (refuse limits base result) m := by
  apply (truncate_respects base hm).bind
  intro _ m₁ hm₁
  exact push_respects result hm₁

theorem enter_respects (f : Func) (base : Nat) (hm : m.Bounded limits)
    (hroom : m.active.calls.size < limits.maxCalls) : Respects limits (enter f base) m :=
  respects_modify (hm.of_active (hm.active.enter hroom f base _) rfl)

/-- A call enters a body only below the limit. -/
theorem call_respects (hm : m.Bounded limits) :
    Respects limits (call program limits i.a i.b) m := by
  apply (fetch_respects program i.b hm).bind
  intro callee m₁ hm₁
  refine Leads.get ?_
  dsimp only
  split
  · exact respects_throw _ hm₁
  split
  · split
    · exact refuse_respects _ _ hm₁
    · refine Leads.get ?_
      split
      · exact respects_throw _ hm₁
      · next hroom => exact enter_respects _ _ hm₁ (Nat.lt_of_not_le hroom)
  · exact refuse_respects _ _ hm₁
  · exact refuse_respects _ _ hm₁

/-- The context that a return finds with a call, and the consumers behind it. -/
theorem leaveProducers_bounded {active c : Context} {consumers cs : Array Context} {gone n : Nat}
    {globals : Globals} {heap : Heap} {console : Console} {journal : Journal}
    (h : Machine.Bounded limits ⟨active, consumers, globals, heap, console, journal⟩)
    (hl : leaveProducers active consumers n = some (c, cs, gone)) :
    Machine.Bounded limits ⟨c, cs, globals, heap, console, journal⟩ := by
  obtain ⟨-, ⟨rfl, rfl⟩ | ⟨-, k, consumer, hk, rfl, hcs, -⟩⟩ := leaveProducers_eq_some hl
  · exact h
  · exact h.take (h.consumer (Array.mem_of_getElem? hk)).awake hcs

theorem ret_respects (hm : m.Bounded limits) : Respects limits (ret program limits ip i.b) m := by
  apply (fetch_respects program i.b hm).bind
  intro v m₁ hm₁
  refine Leads.get ?_
  obtain ⟨active, consumers, globals, heap, console, journal⟩ := m₁
  dsimp only
  split
  · exact respects_throw _ hm₁
  next c cs gone hl =>
  split
  · exact respects_throw _ hm₁
  next call hcall =>
  have hc := leaveProducers_bounded hm₁ hl
  have hleft : Machine.Bounded limits ⟨c.leave call, cs, globals, heap, console, journal⟩ :=
    hc.of_active (hc.active.leave hcall) rfl
  have hrecorded : ∀ (gone : Nat) (m : Machine), m.Bounded limits →
      Respects limits (if 0 < gone then record (.unwound ip gone) else pure ⟨⟩) m := by
    intro gone m hm
    split
    · exact record_respects _ hm
    · exact respects_pure _ hm
  split
  · refine Respects.bind ((respects_set hleft).bind fun _ => hrecorded _) ?_
    intro _ m₂ hm₂
    exact respects_throw _ hm₂
  · refine Respects.bind ((respects_set hleft).bind fun _ => hrecorded _) ?_
    intro _ m₂ hm₂
    apply (push_respects v hm₂).bind
    intro _ m₃ hm₃
    exact goto_respects _ hm₃

/-! ## Switches -/

/-- Only below the limit may one more consumer wait. -/
theorem checkDepth_room (hm : m.Bounded limits) : Leads (checkDepth limits) m
    (fun _ m' => m' = m ∧ m.consumers.size < limits.maxContexts)
    (fun _ m' => m'.Bounded limits) := by
  refine Leads.get ?_
  split
  · exact Leads.of_error rfl hm
  · next hroom => exact Leads.of_ok rfl ⟨rfl, Nat.lt_of_not_le hroom⟩

theorem openGroup_respects (hm : m.Bounded limits) : Respects limits openGroup m :=
  respects_modify (hm.of_active hm.active.openGroup rfl)

theorem closeGroup_respects (hm : m.Bounded limits) : Respects limits (closeGroup ip) m := by
  refine Leads.get ?_
  obtain ⟨active, consumers, globals, heap, console, journal⟩ := m
  dsimp only
  split
  · exact respects_throw _ hm
  · next group hg =>
    refine Respects.bind (respects_set (hm.of_active (hm.active.closeGroup hg) rfl)) ?_
    intro _ m₁ hm₁
    split
    · exact record_respects _ hm₁
    · exact respects_pure _ hm₁

theorem spawn_respects (hm : m.Bounded limits) :
    Respects limits (spawn program limits ip i.a i.b) m := by
  apply (checkDepth_room hm).bind
  rintro _ _ ⟨rfl, hroom⟩
  apply (target_same program ip i.a hm).bind
  rintro cont _ rfl
  apply (target_same program ip i.b hm).bind
  rintro dropIp _ rfl
  refine Leads.get ?_
  rename_i m
  obtain ⟨active, consumers, globals, heap, console, journal⟩ := m
  dsimp only
  split
  · exact respects_throw _ hm
  · next group hg =>
    refine Respects.bind (respects_set ?_) fun _ _ hm₁ => record_respects _ hm₁
    have hconsumer := ((hm.active.openSlot hg).moved cont).waiting ⟨group.size, dropIp⟩
    exact hm.push hroom (.start limits _ (Chain.size_addressable _)) hconsumer rfl

theorem resume_respects (hm : m.Bounded limits) :
    Respects limits (resume program limits ip i.a i.b) m := by
  apply (checkDepth_room hm).bind
  rintro _ _ ⟨rfl, hroom⟩
  apply (target_same program ip i.b hm).bind
  rintro dropIp _ rfl
  refine Leads.get ?_
  rename_i m
  obtain ⟨active, consumers, globals, heap, console, journal⟩ := m
  dsimp only
  split
  · next producer hp =>
    refine Respects.bind (respects_set ?_) fun _ _ hm₁ => record_respects _ hm₁
    have hconsumer := hm.active.setSlot hp fun p (h : none = some p) => nomatch h
    exact hm.push hroom (hm.active.slot hp).awake (hconsumer.waiting _) rfl
  · exact respects_throw _ hm

theorem endIteration_respects (hm : m.Bounded limits) : Respects limits (endIteration ip) m := by
  refine Leads.get ?_
  obtain ⟨active, consumers, globals, heap, console, journal⟩ := m
  dsimp only
  split
  · exact respects_throw _ hm
  next consumer hc =>
  split
  · exact respects_throw _ hm
  · next p hp =>
    have hconsumer := hm.consumer (Array.mem_of_back? hc)
    refine Respects.bind (respects_set ?_) fun _ _ hm₁ => record_respects _ hm₁
    exact hm.pop (hconsumer.moved p.onDrop).awake rfl

/-- The value that is handed over goes onto the stack of the consumer, if there is room. -/
theorem yield_respects (hm : m.Bounded limits) :
    Respects limits (yield program limits ip i.b) m := by
  apply (fetch_respects program i.b hm).bind
  intro v m₁ hm₁
  refine Leads.get ?_
  obtain ⟨active, consumers, globals, heap, console, journal⟩ := m₁
  dsimp only
  split
  · exact respects_throw _ hm₁
  next consumer hc =>
  split
  · exact respects_throw _ hm₁
  next p hp =>
  split
  · exact respects_throw _ hm₁
  · next slot hs =>
    have hproducer : ∀ d, some active.awake = some d → d.Contained limits := by
      rintro _ ⟨⟩
      exact hm₁.active.awake
    have hconsumer := (hm₁.consumer (Array.mem_of_back? hc)).setSlot hs hproducer
    refine Respects.bind (respects_set (hm₁.pop hconsumer.awake rfl)) ?_
    intro _ m₂ hm₂
    apply (record_respects _ hm₂).bind
    intro _ m₃ hm₃
    exact push_respects v hm₃

/-! ## All instructions -/

theorem execute_respects (program : Program) (limits : Limits) (ip : Nat) (i : Instruction)
    (hm : m.Bounded limits) : Respects limits (execute program limits ip i) m := by
  have hnext : ∀ {x : Action Unit} {m : Machine}, Respects limits x m →
      Respects limits (do x; return Flow.next) m := by
    intro x m hx
    apply hx.bind
    intro _ m₁ hm₁
    exact respects_pure _ hm₁
  rw [execute_eq]
  cases i.effect with
  | unary f => exact hnext (unary_respects f hm)
  | binary f => exact hnext (binary_respects f hm)
  | pop =>
    apply hnext
    apply (fetch_respects program ⟨.stack, 0⟩ hm).bind
    intro _ m₁ hm₁
    exact respects_pure _ hm₁
  | slice => exact hnext (slice_respects hm)
  | makeArray => exact hnext (makeArray_respects hm)
  | jump =>
    apply (target_respects program ip i.a hm).bind
    intro t m₁ hm₁
    exact hnext (goto_respects t hm₁)
  | jumpIfFalse => exact hnext (jumpIfFalse_respects hm)
  | makeFunction => exact hnext (makeFunction_respects _ _ _ hm)
  | call => exact hnext (call_respects hm)
  | ret => exact hnext (ret_respects hm)
  | openGroup => exact hnext (openGroup_respects hm)
  | spawn => exact hnext (spawn_respects hm)
  | endIteration => exact hnext (endIteration_respects hm)
  | resume => exact hnext (resume_respects hm)
  | yield => exact hnext (yield_respects hm)
  | closeGroup => exact hnext (closeGroup_respects hm)
  | readLine => exact hnext (readLine_respects hm)
  | write ending => exact hnext (write_respects ending hm)
  | exit =>
    apply (fetch_respects program i.b hm).bind
    intro v m₁ hm₁
    exact respects_pure _ hm₁

end Action

/-! ## Runs -/

namespace Machine

variable {m : Machine}

/-- A step stays within the limits, whatever it comes to. -/
theorem Bounded.step {limits : Limits} (h : m.Bounded limits) (program : Program) :
    (m.step program limits).machine.Bounded limits := by
  unfold Machine.step
  dsimp only
  split
  · unfold finish
    split
    · exact h
    · exact h
  split
  · exact h
  · next w hw i hi =>
    have htraced : ∀ m₁ : Machine,
        m₁ = (if limits.trace then m.record (.executing m.active.ip i m.consumers.size) else m) →
        m₁.Bounded limits := by
      rintro _ rfl
      split
      · exact h.record _
      · exact h
    have hexecute := Action.execute_respects program limits m.active.ip i
      ((htraced _ rfl).goto (m.active.ip + 1))
    unfold Action.Respects Action.Leads at hexecute
    split at hexecute
    · next flow m₁ hx =>
      rw [hx]
      cases flow with
      | next => exact hexecute
      | exit status => exact hexecute
    · next cause m₁ hx =>
      rw [hx]
      exact hexecute

theorem Bounded.run {limits : Limits} (h : m.Bounded limits) (program : Program) (n : Nat) :
    (Machine.run program limits n m).machine.Bounded limits := by
  apply run_invariant h
  intro m₁ h₁
  exact h₁.step program

/-- Whatever the code, no machine of a run goes past its limits, in whichever context. -/
theorem run_bounded (program : Program) (limits : Limits) (n start : Nat) (m : Machine) :
    (Machine.run program limits n (m.restart start)).machine.Bounded limits :=
  (Bounded.restart limits m start).run program n

end Machine

end YieldMachine
