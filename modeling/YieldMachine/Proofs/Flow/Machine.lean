import YieldMachine.Proofs.Flow.Context

/-!
# Sound machines

A machine is sound when every context of it is at a safe place in the shape it has: the
active one, the consumers behind it, and all producers parked under them. The context
at the bottom runs a statement, those above it run iterators. Functions that values
hold start at safe places too.

    Sound.step   a sound machine takes a step to a sound machine, or ends properly
-/

namespace YieldMachine

/-! ## Definitions -/

/-- A function may be called: its body is safe from its start. -/
def Program.Trusts (program : Program) (f : Func) : Prop :=
  Safe program program.Ends f.entry .body

/-- Every activation is at a safe place. -/
def Program.footing (program : Program) : Footing :=
  fun _ => Safe program program.Ends

/-- What the context runs that has so many consumers behind it. -/
def homeAt : Nat → Home
  | 0 => .statement
  | _ + 1 => .iterator

/-- A producer that waits in a group, with the producers parked under it. -/
inductive Parked (program : Program) : Context → Prop
  | parked {c : Context} : c.Poised program.footing .iterator → c.Stack program.Trusts →
      (∀ group ∈ inward c.loops, ∀ p, some p ∈ group → Parked program p) → Parked program c

/-- The values and the producers of a context are as they should be. -/
structure Context.Keeps (program : Program) (c : Context) : Prop where
  stack : c.Stack program.Trusts
  parked : ∀ group ∈ inward c.loops, ∀ p, some p ∈ group → Parked program p

/-- All contexts are at safe places, and all functions can be called. -/
structure Machine.Sound (program : Program) (m : Machine) : Prop where
  active : m.active.Poised program.footing (homeAt m.consumers.size)
  keeps : m.active.Keeps program
  awaiting : ∀ (k : Nat) (c : Context), m.consumers[k]? = some c →
    c.Awaiting program.footing (homeAt k)
  consumers : ∀ (k : Nat) (c : Context), m.consumers[k]? = some c → c.Keeps program
  memory : m.Memory program.Trusts

/-! ## Contexts -/

section

variable {program : Program} {c : Context} {i : Instruction} {d ip : Nat}

theorem Program.supports (hi : program.instruction? ip = some i) :
    Supports program.footing d ip i := by
  intro s hs
  rcases hs.cases with ⟨rfl, -⟩ | ⟨j, hj, -, ha, hn⟩
  · exact absurd (Program.instruction?_lt hi) (Nat.lt_irrefl _)
  · rw [hi] at hj
    cases hj
    exact ⟨ha, fun t ht => hn t (List.mem_append_right _ ht)⟩

/-- What an instruction starts is safe, where an activation stands at it. -/
theorem Context.Poised.starts {base : Home} (h : c.Poised program.footing base)
    (hi : program.instruction? c.ip = some i) :
    i.Legal program c.ip ∧ ∀ t ∈ i.starts c.ip, Safe program program.Ends t.1 t.2 := by
  obtain ⟨ls, hst, -⟩ := h.stacked
  obtain ⟨s, -, -, hq, -, -, -, -⟩ := hst.top
  rcases hq.cases with ⟨hip, -⟩ | ⟨j, hj, hl, -, hn⟩
  · exact absurd (Program.instruction?_lt hi) (hip ▸ Nat.lt_irrefl _)
  · rw [hi] at hj
    cases hj
    exact ⟨hl, fun t ht => hn t (List.mem_append_left _ ht)⟩

theorem Parked.poised (h : Parked program c) :
    c.Poised program.footing .iterator ∧ c.Keeps program := by
  cases h with
  | parked hp hs hk => exact ⟨hp, hs, hk⟩

theorem Context.Poised.parked (h : c.Poised program.footing .iterator) (hk : c.Keeps program) :
    Parked program c :=
  .parked h hk.stack hk.parked

theorem Context.Keeps.swap (h : c.Keeps program) (n : Nat) {vs : Array Value}
    (hv : ∀ v ∈ vs, v.AllFunctions program.Trusts) : (c.swap n vs).Keeps program :=
  ⟨h.stack.swap n hv, h.parked⟩

theorem Context.Keeps.moved (h : c.Keeps program) (t : Nat) : (c.moved t).Keeps program :=
  ⟨h.stack, h.parked⟩

theorem Context.Keeps.awake (h : c.Keeps program) : c.awake.Keeps program :=
  ⟨h.stack, h.parked⟩

theorem Context.Keeps.waiting (h : c.Keeps program) (p : Pending) : (c.waiting p).Keeps program :=
  ⟨h.stack, h.parked⟩

theorem Context.Keeps.start (ip : Nat) (frames : Chain) :
    (Context.start ip frames).Keeps program :=
  ⟨fun v hv => absurd hv (Array.not_mem_empty v), fun _ hg => absurd hg List.not_mem_nil⟩

/-- Changing the innermost group keeps the others. -/
theorem Context.Keeps.modify {f : Group → Group} (h : c.Keeps program)
    (hf : ∀ group ∈ inward c.loops, ∀ p, some p ∈ f group → Parked program p) :
    ({ c with loops := c.loops.modify (c.loops.size - 1) f } : Context).Keeps program := by
  refine ⟨h.stack, fun group hg => ?_⟩
  cases hl : inward c.loops with
  | nil =>
    have hsize : c.loops.size = 0 := by rw [← length_inward, hl]; rfl
    have : c.loops = #[] := Array.eq_empty_of_size_eq_zero hsize
    rw [this] at hg
    cases hg
  | cons first rest =>
    simp only [inward_modify hl] at hg
    rcases List.mem_cons.1 hg with rfl | hg
    · exact hf first (hl ▸ List.mem_cons_self)
    · exact h.parked group (hl ▸ List.mem_cons_of_mem _ hg)

theorem Context.Keeps.openSlot (h : c.Keeps program) : c.openSlot.Keeps program := by
  rw [Context.openSlot_eq]
  refine h.modify fun group hg p hp => ?_
  rcases Array.mem_push.1 hp with hp | hp
  · exact h.parked group hg p hp
  · cases hp

theorem Context.Keeps.setSlot (h : c.Keeps program) (slot : Nat) {content : Option Context}
    (hc : ∀ p, content = some p → Parked program p) : (c.setSlot slot content).Keeps program := by
  rw [Context.setSlot_eq]
  refine h.modify fun group hg p hp => ?_
  rcases Array.mem_or_eq_of_mem_setIfInBounds hp with hp | hp
  · exact h.parked group hg p hp
  · exact hc p hp.symm

theorem Context.Keeps.openGroup (h : c.Keeps program) :
    ({ c with loops := c.loops.push #[] } : Context).Keeps program := by
  refine ⟨h.stack, fun group hg p hp => ?_⟩
  rw [inward_push] at hg
  rcases List.mem_cons.1 hg with rfl | hg
  · exact absurd hp (Array.not_mem_empty _)
  · exact h.parked group hg p hp

theorem Context.Keeps.shrink (h : c.Keeps program) (depth : Nat) :
    ({ c with loops := c.loops.shrink depth } : Context).Keeps program := by
  refine ⟨h.stack, fun group hg => h.parked group ?_⟩
  rw [inward_shrink] at hg
  exact List.mem_of_mem_drop hg

theorem Context.Keeps.closeGroup (h : c.Keeps program) : c.closeGroup.Keeps program := by
  have hpop : c.loops.pop = c.loops.shrink (c.loops.size - 1) := by
    apply Array.ext'
    simp [List.dropLast_eq_take]
  rw [Context.closeGroup_eq, hpop]
  exact h.shrink _

theorem Context.Stack.shrink {F : Func → Prop} (h : c.Stack F) (n : Nat) :
    ∀ v ∈ c.stack.shrink n, v.AllFunctions F := by
  intro v hv
  rw [Array.mem_def, Array.toList_shrink] at hv
  exact h v (Array.mem_def.2 (List.mem_of_mem_take hv))

theorem Context.Keeps.leave (h : c.Keeps program) (r : CallRecord) :
    (c.leave r).Keeps program := by
  rw [Context.leave_eq]
  exact ⟨h.stack.shrink _, (h.shrink r.loopDepth).parked⟩

theorem Context.Keeps.enter (h : c.Keeps program) (f : Func) (b : Nat) (id : FrameId) :
    (c.enter f b id).Keeps program := by
  rw [Context.enter_eq]
  exact ⟨h.stack.shrink _, h.parked⟩

end

/-! ## Leaving producers -/

/-- A return leaves contexts without calls up to the first that has one: the active
context itself, or a consumer behind it. -/
theorem Action.leaveProducers_eq_some {active c : Context} {consumers cs : Array Context}
    {gone n : Nat} (h : Action.leaveProducers active consumers n = some (c, cs, gone)) :
    c.calls.isEmpty = false ∧
      (c = active ∧ cs = consumers ∨
        active.calls.isEmpty = true ∧ ∃ (k : Nat) (consumer : Context),
          consumers[k]? = some consumer ∧ c = consumer.awake ∧ cs.toList = consumers.toList.take k ∧
          ∀ j consumer', k < j → consumers[j]? = some consumer' → consumer'.calls.isEmpty = true) := by
  fun_induction Action.leaveProducers active consumers n with
  | case1 active consumers gone' he hpos consumer ih =>
    obtain ⟨hc, hcase⟩ := ih h
    refine ⟨hc, .inr ⟨he, ?_⟩⟩
    have hlast : consumers[consumers.size - 1]? = some consumer := Array.getElem?_eq_getElem _
    rcases hcase with ⟨rfl, rfl⟩ | ⟨he', k, consumer', hk, hc', hcs, habove⟩
    · refine ⟨consumers.size - 1, consumer, hlast, rfl, ?_, ?_⟩
      · rw [Array.toList_pop, List.dropLast_eq_take, Array.length_toList]
      · intro j consumer' hj hget
        obtain ⟨hlt, -⟩ := Array.getElem?_eq_some_iff.1 hget
        omega
    · obtain ⟨hklt, -⟩ := Array.getElem?_eq_some_iff.1 hk
      rw [Array.size_pop] at hklt
      have hpop : ∀ j, j < consumers.size - 1 → consumers.pop[j]? = consumers[j]? := by
        intro j hj
        rw [Array.getElem?_pop, if_pos hj]
      refine ⟨k, consumer', (hpop k hklt).symm.trans hk, hc', ?_, ?_⟩
      · rw [hcs, Array.toList_pop, List.dropLast_eq_take, List.take_take, Array.length_toList,
          Nat.min_eq_left (by omega)]
      · intro j d hj hget
        obtain ⟨hlt, -⟩ := Array.getElem?_eq_some_iff.1 hget
        rcases Nat.lt_or_ge j (consumers.size - 1) with hj' | hj'
        · exact habove j d hj ((hpop j hj').trans hget)
        · rw [show j = consumers.size - 1 by omega, hlast] at hget
          cases hget
          exact he'
  | case2 active consumers gone' he hpos => cases h
  | case3 active consumers gone' he =>
    cases h
    exact ⟨by simpa using he, .inl ⟨rfl, rfl⟩⟩

/-! ## Steps -/

namespace Machine.Sound

variable {program : Program} {limits : Limits} {m m' : Machine} {i : Instruction}

theorem innermost (h : m.Sound program) {consumer : Context}
    (hc : m.consumers.back? = some consumer) :
    consumer.Awaiting program.footing (homeAt m.consumers.pop.size) ∧ consumer.Keeps program := by
  have hget : m.consumers[m.consumers.size - 1]? = some consumer := by
    rwa [← Array.back?_eq_getElem?]
  rw [Array.size_pop]
  exact ⟨h.awaiting _ _ hget, h.consumers _ _ hget⟩

/-- A consumer that returns or goes on has those behind it that it had. -/
theorem behind (h : m.Sound program) {k : Nat} {cs : Array Context}
    (hcs : ∀ (j : Nat) (c : Context), cs[j]? = some c → m.consumers[j]? = some c) {c : Context} {g : Globals}
    {hp : Heap} {co : Console} {j : Journal} (hk : cs.size = k)
    (hc : c.Poised program.footing (homeAt k)) (hkeeps : c.Keeps program)
    (hm : Machine.Memory program.Trusts ⟨c, cs, g, hp, co, j⟩) :
    Machine.Sound program ⟨c, cs, g, hp, co, j⟩ := by
  subst hk
  exact ⟨hc, hkeeps, fun j c hj => h.awaiting j c (hcs j c hj),
    fun j c hj => h.consumers j c (hcs j c hj), hm⟩

/-- A consumer more stands behind the producer that starts or goes on. -/
theorem front (h : m.Sound program) {c consumer : Context} {g : Globals} {hp : Heap}
    {co : Console} {j : Journal} (hc : c.Poised program.footing .iterator)
    (hkeeps : c.Keeps program)
    (ha : consumer.Awaiting program.footing (homeAt m.consumers.size))
    (hk : consumer.Keeps program)
    (hm : Machine.Memory program.Trusts ⟨c, m.consumers.push consumer, g, hp, co, j⟩) :
    Machine.Sound program ⟨c, m.consumers.push consumer, g, hp, co, j⟩ := by
  have hpush : ∀ n d, (m.consumers.push consumer)[n]? = some d →
      (n = m.consumers.size ∧ d = consumer) ∨ m.consumers[n]? = some d := by
    intro n d hd
    rw [Array.getElem?_push] at hd
    split at hd
    · next hn =>
      cases hd
      exact .inl ⟨hn, rfl⟩
    · exact .inr hd
  refine ⟨?_, hkeeps, fun n d hd => ?_, fun n d hd => ?_, hm⟩
  · show c.Poised _ (homeAt (m.consumers.push consumer).size)
    rw [Array.size_push]
    exact hc
  · rcases hpush n d hd with ⟨rfl, rfl⟩ | hd
    · exact ha
    · exact h.awaiting n d hd
  · rcases hpush n d hd with ⟨rfl, rfl⟩ | hd
    · exact hk
    · exact h.consumers n d hd

/-- What a move leads to is sound again. -/
theorem move (h : m.Sound program) (hi : program.instruction? m.active.ip = some i)
    (hm : Moves program program.Trusts i m m') : m'.Sound program := by
  obtain ⟨hmem, hmove⟩ := hm
  have hs := program.supports (d := m.active.calls.size) hi
  obtain ⟨-, hstarts⟩ := h.active.starts hi
  have hpop : ∀ {cs : Array Context} (j : Nat) (c : Context), cs.pop[j]? = some c →
      cs[j]? = some c := by
    intro cs j c hj
    rw [Array.getElem?_pop] at hj
    split at hj
    · exact hj
    · cases hj
  cases hmove with
  | stay hl ht hk hv =>
    exact h.behind (fun _ _ hj => hj) rfl (h.active.stay hs hl ht hk)
      ((h.keeps.moved _).swap _ hv) hmem
  | enter he hf =>
    exact h.behind (fun _ _ hj => hj) rfl (h.active.enter hs he hf _)
      (((h.keeps.moved _).swap _ (by simp)).enter _ _ _) hmem
  | @ret c c' cs cs' gone r v g hp co j j' he hval hv hl hr =>
    have hsingle : ∀ w ∈ #[v], w.AllFunctions program.Trusts := by simpa using hv
    obtain ⟨-, ⟨rfl, rfl⟩ | ⟨-, k, consumer, hk, rfl, hcs, -⟩⟩ :=
      Action.leaveProducers_eq_some hl
    · exact h.behind (fun _ _ hj => hj) rfl ((h.active.leaves hs hr).left h.active.pending v)
        (((((h.keeps.moved _).swap _ (by simp)).leave _).moved _).swap _ hsingle) hmem
    · have hsize : cs'.size = k := by
        obtain ⟨hlt, -⟩ := Array.getElem?_eq_some_iff.1 hk
        rw [← Array.length_toList, hcs, List.length_take, Array.length_toList]
        omega
      refine h.behind (fun j d hj => ?_) hsize (((h.awaiting _ _ hk).leaves hr).left rfl v)
        (((((h.consumers _ _ hk).awake).leave _).moved _).swap _ hsingle) hmem
      rw [← Array.getElem?_toList, hcs, List.getElem?_take] at hj
      split at hj
      · rwa [Array.getElem?_toList] at hj
      · cases hj
  | openGroup he =>
    exact h.behind (fun _ _ hj => hj) rfl (h.active.openGroup hs he)
      (h.keeps.moved _).openGroup hmem
  | @spawn c cs group g hp co j j' he hg =>
    obtain ⟨group', hg', ha⟩ := h.active.spawn hs he
    cases hg.symm.trans hg'
    refine h.front ?_ (Context.Keeps.start _ _) ha ((h.keeps.openSlot.moved _).waiting _) hmem
    refine ⟨rfl, [], ?_, .nil⟩
    refine hstarts (c.ip + 1, .iterator) ?_
    rw [Instruction.starts, he]
    exact List.mem_singleton.2 rfl
  | @yield c consumer cs p s v g hp co j j' he hval hv hb hwaits hslot =>
    have hsingle : ∀ w ∈ #[v], w.AllFunctions program.Trusts := by simpa using hv
    obtain ⟨hawait, hkeeps⟩ := h.innermost hb
    have hpos : homeAt cs.size = .iterator := by
      obtain ⟨hlt, -⟩ := Array.getElem?_eq_some_iff.1 (Array.back?_eq_getElem? ▸ hb)
      obtain ⟨n, hn⟩ := Nat.exists_eq_succ_of_ne_zero (by omega : cs.size ≠ 0)
      rw [hn]
      rfl
    have hpoised := h.active.yields hs he
    rw [hpos] at hpoised
    exact h.behind hpop rfl (hawait.yielded hwaits _ v)
      ((hkeeps.setSlot _ fun p hp => by
        cases hp
        exact hpoised.parked ((h.keeps.moved _).swap _ (by simp)).awake).awake.swap _ hsingle) hmem
  | @resume c producer cs g hp co j j' he hslot =>
    obtain ⟨-, ha⟩ := h.active.resume hs he
    obtain ⟨group, hg, hget⟩ := Option.bind_eq_some_iff.1 hslot
    have hparked : Parked program producer :=
      h.keeps.parked group (by rw [mem_inward]; exact Array.mem_of_back? hg) producer
        (Array.mem_of_getElem? hget)
    obtain ⟨hpoised, hkeeps⟩ := hparked.poised
    exact h.front hpoised.awake hkeeps.awake ha
      (((h.keeps.moved _).setSlot _ fun p hp => by cases hp).waiting _) hmem
  | endIteration he hb hwaits =>
    obtain ⟨hawait, hkeeps⟩ := h.innermost hb
    exact h.behind hpop rfl (hawait.dropped hwaits) (hkeeps.moved _).awake hmem
  | closeGroup he hg =>
    exact h.behind (fun _ _ hj => hj) rfl (h.active.closeGroup hs he).2
      (h.keeps.moved _).closeGroup hmem

/-- A sound machine has all that the next instruction relies on. -/
theorem ready (h : m.Sound program) (hi : program.instruction? m.active.ip = some i) :
    i.Legal program m.active.ip ∧ m.Ready program.Trusts i := by
  have hs := program.supports (d := m.active.calls.size) hi
  obtain ⟨hlegal, hstarts⟩ := h.active.starts hi
  refine ⟨hlegal, ?_⟩
  constructor
  case takes => exact h.active.takes_le hs
  case stack => exact h.keeps.stack
  case memory => exact h.memory
  case makes =>
    intro he
    refine hstarts (Program.jumpTarget m.active.ip i.a, .body) ?_
    rw [Instruction.starts, he]
    exact List.mem_singleton.2 rfl
  case spawns =>
    intro he
    obtain ⟨group, hg, -⟩ := h.active.spawn hs he
    exact ⟨group, hg⟩
  case closes => exact fun he => (h.active.closeGroup hs he).1
  case resumes => exact fun he => (h.active.resume hs he).1
  case yields =>
    intro _ consumer hc
    obtain ⟨p, hp, hslot⟩ := (h.innermost hc).1.pending
    exact ⟨p, none, hp, hslot⟩
  case ends =>
    intro he
    obtain ⟨ls, hst, -⟩ := h.active.stacked
    obtain ⟨s, -, -, hq, hhome, -, -, -⟩ := hst.top
    have hadm := (hs s hq).1.2
    rw [he] at hadm
    rw [show s.home = .iterator from hadm] at hhome
    have hpos : m.consumers.size ≠ 0 := by
      intro hz
      rw [hz] at hhome
      split at hhome <;> cases hhome
    obtain ⟨p, hp, -⟩ := (h.awaiting (m.consumers.size - 1) _
      (Array.getElem?_eq_getElem (by omega))).pending
    exact ⟨_, p, by rw [Array.back?_eq_getElem?, Array.getElem?_eq_getElem], hp⟩
  case returns =>
    intro he c cs gone r hl hr
    have hleaves : ∃ base, c.Leaves program.footing base r := by
      obtain ⟨-, ⟨rfl, rfl⟩ | ⟨-, k, consumer, hk, rfl, -⟩⟩ := Action.leaveProducers_eq_some hl
      · exact ⟨_, h.active.leaves hs hr⟩
      · exact ⟨_, (h.awaiting _ _ hk).leaves hr⟩
    obtain ⟨base, hleaves⟩ := hleaves
    have := hleaves.frames
    simp only [Context.lacksFrames, decide_eq_false_iff_not]
    omega

end Machine.Sound

/-- What one step of a sound machine can come to. -/
inductive SoundStep (program : Program) (m : Machine) : Step → Prop
  | running {m' : Machine} {i : Instruction} : program.instruction? m.active.ip = some i →
      Move program program.Trusts i m m' → m'.Sound program → SoundStep program m (.running m')
  | finished {v : Value} : SoundStep program m (.finished v m)
  | exited {status : Int64} {m' : Machine} : m'.Memory program.Trusts →
      SoundStep program m (.exited status m')
  | faulted {i : Instruction} {cause : Cause} {m' : Machine} :
      program.instruction? m.active.ip = some i →
      Permitted m.active.frames m.heap i cause → m'.Memory program.Trusts →
      SoundStep program m (.faulted ⟨cause, m.active.ip⟩ m')

/-- A sound machine takes a step to a sound machine, ends properly, or fails with a
permitted cause. -/
theorem Machine.Sound.step {program : Program} {m : Machine} (h : m.Sound program)
    (limits : Limits) : SoundStep program m (m.step program limits) := by
  cases hi : program.instruction? m.active.ip with
  | some i =>
    obtain ⟨hlegal, hready⟩ := h.ready hi
    have hstep : Stepped program _ i m (m.step program limits) :=
      Machine.step_stepped hi hlegal hready
    generalize m.step program limits = st at hstep ⊢
    cases hstep with
    | running hm => exact .running hi hm.2 (h.move hi hm)
    | exited hm => exact .exited hm
    | faulted hf => exact .faulted hi hf.2.2 hf.1
  | none =>
    obtain ⟨ls, hst, -⟩ := h.active.stacked
    obtain ⟨s, -, -, hq, hhome, -, -, -⟩ := hst.top
    rcases Safe.cases hq with ⟨hip, rfl⟩ | ⟨j, hj, -⟩
    · have hbottom : m.consumers.isEmpty := by
        cases hsize : m.consumers.size with
        | zero => simpa using hsize
        | succ n =>
          rw [hsize] at hhome
          split at hhome <;> cases hhome
      have hstep : m.step program limits = .finished (m.active.stack.back?.getD .nil) m := by
        unfold Machine.step
        dsimp only
        rw [hip, Array.getElem?_eq_none (Nat.le_refl _)]
        simp [Machine.finish, hbottom]
      rw [hstep]
      exact .finished
    · rw [hi] at hj
      cases hj

end YieldMachine
