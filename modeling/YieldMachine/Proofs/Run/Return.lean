import YieldMachine.Proofs.Flow.Session
import YieldMachine.Proofs.Machine.Exact
import YieldMachine.Proofs.Run.Activation

/-!
# Calls and returns

A call that enters the body of a function starts an activation. The context that made
the call is followed by its seat, wherever yields and resumes take it, as long as the
record of the call is there. The return that leaves the activation may run in that
context, or in a producer that runs an iterator of one of its loops; either way it
gives back the context as it was before the call, with the value in place of what the
call took, and the producers of the activation's loops are gone.

    Session.Reached.return_restores
-/

namespace YieldMachine

/-! ## Definitions -/

/-- The activation that a call starts. -/
def Activation.ofCall (c : Context) (i : Instruction) (f : Func) (id : FrameId) : Activation where
  record := ⟨c.ip + 1, c.stack.size - i.takes, c.frames.size, c.loops.size⟩
  calls := c.calls.toList
  stack := (c.stack.shrink (c.stack.size - i.takes)).toList
  frames := f.frames c.frames id
  loops := c.loops.toList

/-- What the active context does is done for the innermost of `depth` activations of the
context in a seat: no context of the spine in front of it has a call. -/
structure Machine.Serves (m : Machine) (seat : Seat) (depth : Nat) : Prop where
  path : seat.path = []
  context : ∃ c, m.spine[seat.level]? = some c ∧ c.calls.size = depth
  front : ∀ k c, seat.level < k → m.spine[k]? = some c → c.calls.size = 0

/-- A seat is under another, in one of its groups from `depth` on, or in front of it. -/
def Seat.Inside (depth : Nat) (seat inner : Seat) : Prop :=
  (inner.level = seat.level ∧ ∃ place rest, inner.path = seat.path ++ place :: rest ∧
    depth ≤ place.1) ∨ (seat.path = [] ∧ seat.level < inner.level)

/-! ## Starting an activation -/

theorem Activation.ofCall_based (c : Context) (i : Instruction) (f : Func) (id : FrameId) :
    (Activation.ofCall c i f id).Based := by
  refine ⟨?_, ?_⟩
  · show c.stack.size - i.takes = (c.stack.shrink (c.stack.size - i.takes)).toList.length
    rw [Array.length_toList, Array.size_shrink]
    omega
  · exact Array.length_toList.symm

theorem Activation.ofCall_in {c : Context} {i : Instruction} (f : Func) (id : FrameId)
    (he : i.effect = .call) (ht : i.takes ≤ c.stack.size) : (Activation.ofCall c i f id).In
      (((c.moved (c.ip + 1)).swap i.b.cells #[]).enter f (c.stack.size - i.takes) id) := by
  have hcells : i.b.cells ≤ i.takes := by
    rw [Instruction.takes, he]
    exact Nat.le_add_right _ _
  have hbase : (Activation.ofCall c i f id).stack.length = c.stack.size - i.takes :=
    (Activation.ofCall_based c i f id).stack.symm
  rw [Context.enter_eq]
  constructor
  case calls =>
    simp only [Array.toList_push]
    exact List.prefix_rfl
  case stack =>
    refine isPrefix_shrink (isPrefix_append (isPrefix_shrink ?_ ?_) #[]) (Nat.le_of_eq hbase)
    · simp only [Activation.ofCall, Array.toList_shrink]
      exact List.take_prefix _ _
    · rw [hbase]
      show _ ≤ c.stack.size - i.b.cells
      omega
  case frames => exact List.prefix_rfl
  case loops => exact List.prefix_rfl
  case own => exact fun _ => rfl
  case above =>
    intro r hr
    simp only [Array.toList_push] at hr
    rw [show (Activation.ofCall c i f id).calls.length = c.calls.toList.length from rfl] at hr
    have hr : r ∈ [_] := List.drop_left ▸ hr
    cases List.mem_singleton.1 hr
    exact ⟨Nat.le_of_eq hbase, Nat.le_of_eq Array.length_toList⟩
  case inner =>
    intro r hr
    rw [List.drop_of_length_le] at hr
    · cases hr
    · simp [Activation.ofCall, Context.swap, Context.moved]
  case next =>
    intro r hr
    rw [Array.getElem?_eq_none] at hr
    · cases hr
    · simp [Activation.ofCall, Context.swap, Context.moved]

/-! ## Following an activation -/

variable {program : Program} {limits : Limits} {m m' : Machine} {i : Instruction} {seat : Seat}
  {a : Activation} {c c' : Context}

/-- One step keeps the activation, wherever its context is. -/
theorem Activation.In.step (h : m.Sound program) (hc : m.seat? seat = some c) (ha : a.In c)
    (hi : program.instruction? m.active.ip = some i) (hstep : m.step program limits = .running m')
    (hc' : m'.seat? (m.reseat i seat) = some c') (hd : a.calls.length < c'.calls.size) :
    m'.Sound program ∧ a.In c' := by
  have hsound := h.step limits
  rw [hstep] at hsound
  cases hsound with
  | running hi' hmove hsound =>
    rw [hi] at hi'
    cases hi'
    refine ⟨hsound, ?_⟩
    cases hmove.followed h hc hc' with
    | same heq => exact heq ▸ ha
    | turned _ hactive ht =>
      subst hactive
      exact ha.turn h.active (program.supports hi) ht hd
    | woken _ _ hconsumer _ _ hw => exact ha.wake (h.awaiting _ _ hconsumer) hw hd

/-- The activation is in the context in a seat. -/
def Activation.Seated (program : Program) (a : Activation) (m : Machine) (seat : Seat) : Prop :=
  m.Sound program ∧ ∃ c, m.seat? seat = some c ∧ a.In c

theorem Activation.Seated.follow {n : Nat} {seat' : Seat} (h : a.Seated program m seat)
    (hf : m.follow program limits (fun c => a.calls.length < c.calls.size) n seat =
      some (m', seat')) : a.Seated program m' seat' := by
  refine Machine.follow_invariant (I := a.Seated program) ?_ h hf
  intro m seat i m' c' ⟨hs, c, hc, ha⟩ hi hstep hc' hkeep
  obtain ⟨hs', ha'⟩ := ha.step hs hc hi hstep hc' (of_decide_eq_true hkeep)
  exact ⟨hs', c', hc', ha'⟩

/-! ## Leaving an activation -/

theorem Activation.In.restored {v : Value} {r : CallRecord} (ha : a.In c) (hb : a.Based)
    (hsize : c.calls.size = a.calls.length + 1) (hr : c.calls.back? = some r)
    (hp : c.pending = none) : ((c.leave r).moved r.returnIp).swap 0 #[v] =
      ⟨a.record.returnIp, (a.stack.toArray).push v, a.frames.shrink a.record.frameDepth,
        a.calls.toArray, a.loops.toArray, none⟩ := by
  obtain ⟨hrecord, hleave⟩ := ha.left hb hsize
  rw [hrecord] at hr
  cases hr
  rw [hleave, hp]
  simp only [Context.moved, Context.swap, Nat.sub_zero, Context.mk.injEq, true_and, and_true]
  apply Array.ext'
  rw [Array.toList_append, Array.toList_shrink, Array.toList_push,
    List.take_of_length_le (Nat.le_of_eq Array.length_toList)]

theorem Machine.serves_iff {depth : Nat} : m.Serves seat depth ↔
    seat.path = [] ∧ (m.spine[seat.level]?.map fun c => c.calls.size) = some depth ∧
      ∀ n ∈ (m.spine.toList.drop (seat.level + 1)).map fun c => c.calls.size, n = 0 := by
  have hdrop : ∀ c, c ∈ m.spine.toList.drop (seat.level + 1) ↔
      ∃ k, seat.level < k ∧ m.spine[k]? = some c := by
    intro c
    simp only [List.mem_iff_getElem?, List.getElem?_drop, Array.getElem?_toList]
    constructor
    · rintro ⟨k, hk⟩
      exact ⟨seat.level + 1 + k, by omega, hk⟩
    · rintro ⟨k, hlt, hk⟩
      refine ⟨k - (seat.level + 1), ?_⟩
      rwa [show seat.level + 1 + (k - (seat.level + 1)) = k by omega]
  simp only [List.forall_mem_map, hdrop, Option.map_eq_some_iff]
  constructor
  · rintro ⟨hpath, hcontext, hfront⟩
    exact ⟨hpath, hcontext, fun c ⟨k, hlt, hk⟩ => hfront k c hlt hk⟩
  · rintro ⟨hpath, hcontext, hfront⟩
    exact ⟨hpath, hcontext, fun k c hlt hk => hfront c ⟨k, hlt, hk⟩⟩

/-- A return leaves the activation that it is executed for. -/
theorem Machine.Serves.leaves {depth gone : Nat} {d : Context} {cs : Array Context}
    (hs : m.Serves seat (depth + 1))
    (hl : Action.leaveProducers d m.consumers 0 = some (c', cs, gone))
    (hd : d.calls = m.active.calls) :
    cs.size = seat.level ∧ (seat.level = m.consumers.size ∧ c' = d ∨
      ∃ consumer, m.consumers[seat.level]? = some consumer ∧ c' = consumer.awake) := by
  obtain ⟨c, hspine, hsize⟩ := hs.context
  have hle := Machine.le_of_spine hspine
  obtain ⟨hne, hcase⟩ := Action.leaveProducers_eq_some hl
  rw [Array.isEmpty_eq_false_iff] at hne
  rcases hcase with ⟨rfl, rfl⟩ | ⟨hempty, k, consumer, hk, rfl, hcs, habove⟩
  · have hlevel : seat.level = m.consumers.size := by
      refine Nat.le_antisymm hle (Nat.le_of_not_lt fun hlt => hne ?_)
      rw [hd]
      exact Array.eq_empty_of_size_eq_zero (hs.front _ _ hlt Machine.spine_top)
    exact ⟨hlevel.symm, .inl ⟨hlevel, rfl⟩⟩
  · obtain ⟨hlt, -⟩ := Array.getElem?_eq_some_iff.1 hk
    have hlevel : k = seat.level := by
      rcases Nat.lt_trichotomy k seat.level with hk' | heq | hk'
      · -- a context with calls would stand in front of the one that was found
        exfalso
        rcases Nat.lt_or_eq_of_le hle with hl' | hl'
        · rw [Machine.spine_of_lt hl'] at hspine
          have := habove _ _ hk' hspine
          rw [Array.isEmpty_iff_size_eq_zero] at this
          omega
        · rw [hl', Machine.spine_top] at hspine
          cases hspine
          rw [hd, Array.isEmpty_iff_size_eq_zero] at hempty
          omega
      · exact heq
      · exact absurd (Array.eq_empty_of_size_eq_zero
          (hs.front k consumer hk' (by rw [Machine.spine_of_lt hlt, hk]))) hne
    subst hlevel
    refine ⟨?_, .inr ⟨consumer, hk, rfl⟩⟩
    rw [← Array.length_toList, hcs, List.length_take, Array.length_toList]
    omega

/-- A return for an activation leaves its context as it was, with the value on the stack. -/
theorem Activation.In.returns {F : Func → Prop} (h : m.Sound program)
    (hi : program.instruction? m.active.ip = some i) (he : i.effect = .ret)
    (hmove : Move program F i m m') (hs : m.Serves seat (a.calls.length + 1))
    (hc : m.seat? seat = some c) (ha : a.In c) (hb : a.Based) :
    m'.consumers.size = seat.level ∧ ∃ v, m.value? program i.b = some v ∧ m'.active =
      ⟨a.record.returnIp, (a.stack.toArray).push v, a.frames.shrink a.record.frameDepth,
        a.calls.toArray, a.loops.toArray, none⟩ := by
  obtain ⟨e, hspine, hunder⟩ := Machine.seat?_eq_some.1 hc
  rw [hs.path] at hunder
  cases hunder
  obtain ⟨c₁, hspine', hsize⟩ := hs.context
  rw [hspine] at hspine'
  cases hspine'
  cases hmove with
  | @ret active c' cs cs' gone r v g hp co j j' he' hval hv hl hr =>
    obtain ⟨hlevel, hcase⟩ := hs.leaves hl rfl
    refine ⟨hlevel, v, hval, ?_⟩
    rcases hcase with ⟨htop, rfl⟩ | ⟨consumer, hk, rfl⟩
    · rw [htop, Machine.spine_top] at hspine
      cases hspine
      obtain ⟨r', hr', hbase, -⟩ := ha.innermost
      have hroom := (h.active.floor (program.supports hi) hr').1
      have hin : a.In ((active.moved (active.ip + 1)).swap i.takes #[]) := by
        refine (ha.moved _).swap ?_
        dsimp only at hroom
        show _ ≤ active.stack.size
        omega
      exact hin.restored hb hsize hr h.active.pending
    · obtain ⟨hlt, -⟩ := Array.getElem?_eq_some_iff.1 hk
      rw [Machine.spine_of_lt hlt, hk] at hspine
      cases hspine
      exact ha.awake.restored hb hsize hr rfl
  | stay hl => rw [he] at hl; exact hl.elim
  | enter he' => rw [he] at he'; cases he'
  | openGroup he' => rw [he] at he'; cases he'
  | spawn he' => rw [he] at he'; cases he'
  | yield he' => rw [he] at he'; cases he'
  | resume he' => rw [he] at he'; cases he'
  | endIteration he' => rw [he] at he'; cases he'
  | closeGroup he' => rw [he] at he'; cases he'

/-! ## Producers of an activation -/

/-- A seat that is inside another stays there while both are followed. -/
theorem Seat.Inside.reseat {depth : Nat} {inner : Seat} (h : seat.Inside depth inner)
    (hle : inner.level ≤ m.consumers.size)
    (hgroup : i.effect = .yield → seat.path = [] → seat.level + 1 = m.consumers.size →
      depth ≤ m.place.1) :
    (m.reseat i seat).Inside depth (m.reseat i inner) := by
  by_cases hy : i.effect = .yield
  · rw [Machine.reseat_yield hy, Machine.reseat_yield hy]
    rcases h with ⟨hlevel, place, rest, hpath, hdepth⟩ | ⟨hpath, hlevel⟩
    · rw [hlevel, hpath]
      split
      · exact .inl ⟨rfl, place, rest, rfl, hdepth⟩
      · exact .inl ⟨hlevel, place, rest, hpath, hdepth⟩
    · rw [if_neg (show seat.level ≠ m.consumers.size by omega)]
      split
      · next htop =>
        rcases Nat.lt_or_eq_of_le (show seat.level + 1 ≤ m.consumers.size by omega) with hlt | heq
        · exact .inr ⟨hpath, by show seat.level < m.consumers.size - 1; omega⟩
        · refine .inl ⟨by show m.consumers.size - 1 = seat.level; omega, m.place, inner.path, ?_,
            hgroup hy hpath heq⟩
          rw [hpath, List.nil_append]
      · exact .inr ⟨hpath, hlevel⟩
  · by_cases hr : i.effect = .resume
    · rw [Machine.reseat_resume hr, Machine.reseat_resume hr]
      rcases h with ⟨hlevel, place, rest, hpath, hdepth⟩ | ⟨hpath, hlevel⟩
      · cases hseat : seat.path with
        | nil =>
          rw [hseat, List.nil_append] at hpath
          rw [if_neg (by simp)]
          split
          · next htop => exact .inr ⟨hseat, by show seat.level < m.consumers.size + 1; omega⟩
          · exact .inl ⟨hlevel, place, rest, by rw [hpath, hseat, List.nil_append], hdepth⟩
        | cons first path =>
          rw [hpath, hseat, hlevel]
          rw [List.cons_append, List.head?_cons, List.head?_cons]
          split
          · exact .inl ⟨rfl, place, rest, rfl, hdepth⟩
          · exact .inl ⟨hlevel, place, rest, hpath, hdepth⟩
      · rw [hpath, if_neg (by simp)]
        split
        · exact .inr ⟨hpath, by show seat.level < m.consumers.size + 1; omega⟩
        · exact .inr ⟨hpath, hlevel⟩
    · rwa [Machine.reseat_of_ne hy hr, Machine.reseat_of_ne hy hr]

/-- The activation is in the context in a seat, and another seat is inside it. -/
def Activation.Owns (program : Program) (a : Activation) (m : Machine) (seat inner : Seat) : Prop :=
  a.Seated program m seat ∧ seat.Inside a.loops.length inner ∧ inner.level ≤ m.consumers.size

theorem Activation.Owns.step {inner : Seat} {d : Context} (h : a.Owns program m seat inner)
    (hi : program.instruction? m.active.ip = some i) (hstep : m.step program limits = .running m')
    (hc' : m'.seat? (m.reseat i seat) = some c') (hd : a.calls.length < c'.calls.size)
    (hinner : m'.seat? (m.reseat i inner) = some d) :
    a.Owns program m' (m.reseat i seat) (m.reseat i inner) := by
  obtain ⟨⟨hs, c, hc, ha⟩, hinside, hle⟩ := h
  obtain ⟨hs', ha'⟩ := ha.step hs hc hi hstep hc' hd
  refine ⟨⟨hs', c', hc', ha'⟩, hinside.reseat hle ?_, ?_⟩
  · -- the group that the producer is parked in is one of the activation's own
    intro _ hpath hlevel
    obtain ⟨e, he, hunder⟩ := Machine.seat?_eq_some.1 hc
    rw [hpath] at hunder
    cases hunder
    rw [Machine.spine_of_lt (by omega)] at he
    have hback : m.consumers.back? = some c := by
      rw [Array.back?_eq_getElem?, ← hlevel, Nat.add_sub_cancel, he]
    obtain ⟨r, hr, -, hloops⟩ := ha.innermost
    obtain ⟨-, hlt⟩ := (hs.awaiting _ _ he).floor hr
    rw [Machine.place, hback, Option.map_some, Option.getD_some]
    show a.loops.length ≤ c.loops.size - 1
    omega
  · obtain ⟨e, he, -⟩ := Machine.seat?_eq_some.1 hinner
    exact Machine.le_of_spine he

theorem Activation.Owns.follow {n : Nat} {inner seat' inner' : Seat} {m₂ : Machine}
    (h : a.Owns program m seat inner)
    (hf : m.follow program limits (fun c => a.calls.length < c.calls.size) n seat =
      some (m', seat'))
    (hg : m.follow program limits (fun _ => true) n inner = some (m₂, inner')) :
    a.Owns program m' seat' inner' := by
  refine Machine.follow_invariant₂ (I := a.Owns program) ?_ h hf hg
  intro m seat inner i m' c d h hi hstep hc hkeep hd
  exact h.step hi hstep hc (of_decide_eq_true hkeep) hd

/-- What is inside an activation is gone once its context has none of its groups. -/
theorem Seat.Inside.gone {depth : Nat} {inner : Seat} (h : seat.Inside depth inner)
    (hpath : seat.path = []) (hlevel : m.consumers.size = seat.level)
    (hloops : m.active.loops.size = depth) : m.seat? inner = none := by
  rcases h with ⟨heq, place, rest, hinner, hdepth⟩ | ⟨-, hlt⟩
  · rw [Machine.seat?, heq, ← hlevel, Machine.spine_top, hinner, hpath]
    show m.active.under? (place :: rest) = none
    rw [Context.under?, Context.slotAt?, Array.getElem?_eq_none (by omega)]
    rfl
  · rw [Machine.seat?, Array.getElem?_eq_none]
    · rfl
    · rw [Machine.spine, Array.size_push]
      omega

/-! ## Sessions -/

/-- A call that enters a body starts an activation in the active context, with a new frame. -/
theorem Machine.Sound.enters {m₁ : Machine} (h : m.Sound program)
    (hi : program.instruction? m.active.ip = some i) (hcall : i.opcode = .call)
    (hstep : m.step program limits = .running m₁)
    (hdepth : m.active.calls.size < m₁.active.calls.size) :
    ∃ f args, m.value? program i.b = some (.function f) ∧ args.size = f.params ∧
      m₁.heap = m.heap.push (Frame.ofArgs args f.frameSize) ∧
      (Activation.ofCall m.active i f m.heap.size).Seated program m₁ m.front := by
  have he : i.effect = .call := by rw [Instruction.effect, hcall]; rfl
  have htakes := h.active.takes_le (program.supports hi)
  have hsound := h.step limits
  rw [hstep] at hsound
  cases hsound with
  | running hi' hmove hsound =>
    rw [hi] at hi'
    cases hi'
    obtain ⟨hcs, hcalls | ⟨f, args, -, hval, harity, hheap, hactive⟩⟩ := hmove.of_call he
    · rw [hcalls] at hdepth
      exact absurd hdepth (Nat.lt_irrefl _)
    · refine ⟨f, args, hval, harity, hheap, hsound, m₁.active, ?_,
        hactive ▸ Activation.ofCall_in f _ he htakes⟩
      rw [Machine.front, ← hcs]
      exact Machine.seat?_front

/-- A producer that is spawned for an activation is inside it. -/
theorem Activation.Seated.spawns {p : Instruction} {depth : Nat} (h : a.Seated program m seat)
    (hi : program.instruction? m.active.ip = some p) (hspawn : p.opcode = .spawn)
    (hstep : m.step program limits = .running m') (hs : m.Serves seat depth)
    (hc' : m'.seat? (m.reseat p seat) = some c') (hd : a.calls.length < c'.calls.size) :
    a.Owns program m' (m.reseat p seat) m'.front := by
  have he : p.effect = .spawn := by rw [Instruction.effect, hspawn]; rfl
  obtain ⟨hsound, c, hc, ha⟩ := h
  obtain ⟨hsound', ha'⟩ := ha.step hsound hc hi hstep hc' hd
  refine ⟨⟨hsound', c', hc', ha'⟩, ?_, Nat.le_refl _⟩
  rw [Machine.reseat_of_ne (by rw [he]; nofun) (by rw [he]; nofun)]
  refine .inr ⟨hs.path, ?_⟩
  obtain ⟨e, hspine, -⟩ := hs.context
  have hle := Machine.le_of_spine hspine
  have hmoves := hsound.step limits
  rw [hstep] at hmoves
  cases hmoves with
  | running hi' hmove _ =>
    rw [hi] at hi'
    cases hi'
    cases hmove with
    | spawn he' hg =>
      show seat.level < (Array.push _ _).size
      rw [Array.size_push]
      exact Nat.lt_succ_of_le hle
    | stay hl => rw [he] at hl; exact hl.elim
    | enter he' => rw [he] at he'; cases he'
    | ret he' => rw [he] at he'; cases he'
    | openGroup he' => rw [he] at he'; cases he'
    | yield he' => rw [he] at he'; cases he'
    | resume he' => rw [he] at he'; cases he'
    | endIteration he' => rw [he] at he'; cases he'
    | closeGroup he' => rw [he] at he'; cases he'

/-- Calls and returns are well bracketed. The activation that a call starts is followed by
the seat of its context, for `n` steps. A return for it makes that context active again,
as it was before the call but for the value in place of callee and arguments, and behind
the call. Every producer that was spawned for the activation is gone. -/
theorem Session.Reached.return_restores {s : Session} {node : Node} {program : Program}
    {m m₁ m₂ m₃ : Machine} {i j : Instruction} {n : Nat} {seat : Seat} (hs : s.Reached)
    (hm : s.Visits node program m)
    (hi : program.instruction? m.active.ip = some i) (hcall : i.opcode = .call)
    (henters : m.step program s.limits = .running m₁)
    (hdepth : m.active.calls.size < m₁.active.calls.size)
    (hlives : m₁.follow program s.limits (fun c => m.active.calls.size < c.calls.size) n
      m.front = some (m₂, seat))
    (hj : program.instruction? m₂.active.ip = some j) (hret : j.opcode = .ret)
    (hserves : m₂.Serves seat (m.active.calls.size + 1))
    (hreturns : m₂.step program s.limits = .running m₃) :
    m₂.reseat j seat = m₃.front ∧
    (∃ v, m₂.value? program j.b = some v ∧ m₃.active = { m.active with
      ip := m.active.ip + 1
      stack := (m.active.stack.shrink
        (m.active.stack.size - (i.b.cells + i.a.address.toNat))).push v }) ∧
    ∀ (k l : Nat) (m' m'' : Machine) (p : Instruction) (seat' inner : Seat), k + 1 + l = n →
      m₁.follow program s.limits (fun c => m.active.calls.size < c.calls.size) k m.front =
        some (m', seat') →
      m'.Serves seat' (m.active.calls.size + 1) →
      program.instruction? m'.active.ip = some p → p.opcode = .spawn →
      m'.step program s.limits = .running m'' →
      m''.follow program s.limits (fun _ => true) l m''.front = some (m₂, inner) →
      m₃.seat? (m₂.reseat j inner) = none := by
  have hsound := hs.visits hm
  have he : i.effect = .call := by rw [Instruction.effect, hcall]; rfl
  have hej : j.effect = .ret := by rw [Instruction.effect, hret]; rfl
  have hreseat : ∀ q, m₂.reseat j q = q := fun q =>
    Machine.reseat_of_ne (by rw [hej]; nofun) (by rw [hej]; nofun)
  obtain ⟨f, -, -, -, -, hseated⟩ := hsound.enters hi hcall henters hdepth
  have hbased := Activation.ofCall_based m.active i f m.heap.size
  obtain ⟨hsound₂, c, hc, hin⟩ := hseated.follow hlives
  have hsound₃ := hsound₂.step s.limits
  rw [hreturns] at hsound₃
  cases hsound₃ with
  | running hj' hmove hsound₃ =>
    rw [hj] at hj'
    cases hj'
    obtain ⟨hlevel, v, hv, hactive⟩ := hin.returns hsound₂ hj hej hmove hserves hc hbased
    refine ⟨?_, ⟨v, hv, ?_⟩, ?_⟩
    · rw [hreseat, Machine.front, hlevel, ← hserves.path]
    · have htakes : i.b.cells + i.a.address.toNat = i.takes := by rw [Instruction.takes, he]
      rw [hactive, htakes]
      simp only [Activation.ofCall, Func.frames_shrink, Array.toArray_toList,
        hsound.active.pending]
    · intro k l m' m'' p seat' inner hn hbefore hserves' hp hspawn hspawns hafter
      -- the context of the activation is followed along with the producer
      rw [← hn, Nat.add_assoc, Machine.follow_add, hbefore] at hlives
      rw [show Option.bind _ _ = Machine.follow program s.limits _ (1 + l) m' seat' from rfl,
        Nat.add_comm] at hlives
      obtain ⟨p', m₄, c', hp', hstep', hc', hkeep, hrest⟩ := Machine.follow_succ hlives
      rw [hp] at hp'
      rw [hspawns] at hstep'
      cases hp'
      cases hstep'
      have howns := (hseated.follow hbefore).spawns hp hspawn hspawns hserves' hc'
        (of_decide_eq_true hkeep)
      obtain ⟨-, hinside, -⟩ := howns.follow hrest hafter
      rw [hreseat]
      refine hinside.gone hserves.path hlevel ?_
      rw [hactive]
      exact List.size_toArray

/-- A call of a function that returns from inside the iterator of its loop. -/
def Node.loopReturn : Node :=
  .call (.function 0 1 (.forEach [.own 0] [.ret (.array [])] (.literal .nil))) []

/-- The program and the machine that it starts with in a fresh session. -/
def Session.loopReturn : Program × Machine :=
  ((Session.fresh {} default default).start? .loopReturn).get!

/-- The machine after `n` steps of it. -/
def Machine.loopReturn (n : Nat) : Machine :=
  (Machine.run Session.loopReturn.1 {} n Session.loopReturn.2).machine

/-- The producer that runs the return is gone, and so is the loop that spawned it. -/
theorem Session.return_restores_loopReturn :
    ∃ (program : Program) (m m₁ m₂ m₃ m' m'' : Machine) (i j p : Instruction)
      (seat seat' inner : Seat),
      (Session.fresh {} default default).Visits .loopReturn program m ∧
      program.instruction? m.active.ip = some i ∧ i.opcode = .call ∧
      m.step program {} = .running m₁ ∧ m.active.calls.size < m₁.active.calls.size ∧
      m₁.follow program {} (fun c => m.active.calls.size < c.calls.size) 4 m.front =
        some (m₂, seat) ∧
      program.instruction? m₂.active.ip = some j ∧ j.opcode = .ret ∧
      m₂.Serves seat (m.active.calls.size + 1) ∧ m₂.step program {} = .running m₃ ∧
      m₂.reseat j seat = m₃.front ∧
      (∃ v, m₂.value? program j.b = some v ∧ m₃.active = { m.active with
        ip := m.active.ip + 1
        stack := (m.active.stack.shrink
          (m.active.stack.size - (i.b.cells + i.a.address.toNat))).push v }) ∧
      m₁.follow program {} (fun c => m.active.calls.size < c.calls.size) 2 m.front =
        some (m', seat') ∧
      m'.Serves seat' (m.active.calls.size + 1) ∧
      program.instruction? m'.active.ip = some p ∧ p.opcode = .spawn ∧
      m'.step program {} = .running m'' ∧
      m''.follow program {} (fun _ => true) 1 m''.front = some (m₂, inner) ∧
      m₃.seat? (m₂.reseat j inner) = none := by
  have hs := Session.Reached.fresh {} default default
  have hrun : ∀ n k, (Machine.run Session.loopReturn.1 {} (n + k) Session.loopReturn.2).isEnd =
      false → Machine.run Session.loopReturn.1 {} k (Machine.loopReturn n) =
        .running (Machine.loopReturn (n + k)) :=
    fun n k h => Machine.run_machine h
  have hstep : ∀ n, (Machine.run Session.loopReturn.1 {} (n + 1) Session.loopReturn.2).isEnd =
      false → (Machine.loopReturn n).step Session.loopReturn.1 {} =
        .running (Machine.loopReturn (n + 1)) :=
    fun n h => Machine.run_one.symm.trans (hrun n 1 h)
  have hinstr : ∀ n, (Session.loopReturn.1.instruction? (Machine.loopReturn n).active.ip).isSome →
      Session.loopReturn.1.instruction? (Machine.loopReturn n).active.ip = some _ :=
    fun n h => (Option.some_get! _ h).symm
  have hm : (Session.fresh {} default default).Visits .loopReturn Session.loopReturn.1
      (Machine.loopReturn 2) :=
    ⟨_, 2, (Option.some_get! _ (by decide +kernel)).symm, hrun 0 2 (by decide +kernel)⟩
  -- the call is made by step 3, the producer is spawned by step 6, and returns by step 8
  have hi := hinstr 2 (by decide +kernel)
  have hj := hinstr 7 (by decide +kernel)
  have hp := hinstr 5 (by decide +kernel)
  have henters := hstep 2 (by decide +kernel)
  have hreturns := hstep 7 (by decide +kernel)
  have hspawns := hstep 5 (by decide +kernel)
  have hlives : (Machine.loopReturn 3).follow Session.loopReturn.1 {}
      (fun c => (Machine.loopReturn 2).active.calls.size < c.calls.size) 4
        (Machine.loopReturn 2).front = some (Machine.loopReturn 7, ⟨0, []⟩) :=
    Machine.follow_of_run (hrun 3 4 (by decide +kernel)) (by decide +kernel)
  have hbefore : (Machine.loopReturn 3).follow Session.loopReturn.1 {}
      (fun c => (Machine.loopReturn 2).active.calls.size < c.calls.size) 2
        (Machine.loopReturn 2).front = some (Machine.loopReturn 5, ⟨0, []⟩) :=
    Machine.follow_of_run (hrun 3 2 (by decide +kernel)) (by decide +kernel)
  have hafter : (Machine.loopReturn 6).follow Session.loopReturn.1 {} (fun _ => true) 1
      (Machine.loopReturn 6).front = some (Machine.loopReturn 7, ⟨1, []⟩) :=
    Machine.follow_of_run (hrun 6 1 (by decide +kernel)) (by decide +kernel)
  have hserves : (Machine.loopReturn 7).Serves ⟨0, []⟩
      ((Machine.loopReturn 2).active.calls.size + 1) :=
    Machine.serves_iff.2 (by decide +kernel)
  have hserves' : (Machine.loopReturn 5).Serves ⟨0, []⟩
      ((Machine.loopReturn 2).active.calls.size + 1) :=
    Machine.serves_iff.2 (by decide +kernel)
  have hdepth : (Machine.loopReturn 2).active.calls.size <
      (Machine.loopReturn 3).active.calls.size := by decide +kernel
  obtain ⟨hseat, hactive, hgone⟩ := hs.return_restores hm hi (by decide +kernel) henters hdepth
    hlives hj (by decide +kernel) hserves hreturns
  exact ⟨_, _, _, _, _, _, _, _, _, _, _, _, _, hm, hi, by decide +kernel, henters, hdepth,
    hlives, hj, by decide +kernel, hserves, hreturns, hseat, hactive, hbefore, hserves', hp,
    by decide +kernel, hspawns, hafter,
    hgone 2 1 _ _ _ _ _ rfl hbefore hserves' hp (by decide +kernel) hspawns hafter⟩

end YieldMachine
