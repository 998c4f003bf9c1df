import YieldMachine.Proofs.Flow.Region
import YieldMachine.Proofs.Iteration.Protocol

/-!
# Stages of a loop

In every stage but the body, the instruction that the context of a loop executes next is one
of the loop itself, and it leads to the next stage. While the context waits, the producer
that it waits for yields, or comes to its end, or a return leaves the activation that runs
the loop.

    Shows.spawns, Shows.resumes, Shows.waits, Shows.stores, …   one lemma for each stage
-/

namespace YieldMachine

namespace Loop

variable {l : Loop}

/-! ## The context of the loop -/

theorem modify_push {α : Type} (xs : Array α) (x : α) (f : α → α) :
    (xs.push x).modify ((xs.push x).size - 1) f = xs.push (f x) := by
  rw [Array.size_push, Nat.add_sub_cancel]
  apply Array.ext'
  rw [Array.toList_modify, Array.toList_push, Array.toList_push, List.modify_eq_take_drop]
  simp

variable {c₀ : Context} {r k : Nat} {v w : Value} {vs ws : List Value} {ps : List Context}

theorem context_spawned (hps : ps.length = k) :
    ((l.context c₀ ⟨0, k, v, vs, ps, .advance⟩).openSlot.moved (l.takeAt k)).waiting
      ⟨k, l.exitAt⟩ = l.context c₀ ⟨0, k, v, vs, ps, .await⟩ := by
  rw [Context.openSlot_eq]
  simp only [context, Context.moved, Context.waiting, modify_push, Context.mk.injEq]
  refine ⟨rfl, rfl, trivial, trivial, ?_, rfl⟩
  simp only [Progress.slots, List.take_of_length_le (Nat.le_of_eq hps),
    List.drop_of_length_le (show ps.length ≤ k + 1 by omega)]
  simp

theorem context_resumed (hps : k < ps.length) :
    (((l.context c₀ ⟨r + 1, k, v, vs, ps, .advance⟩).moved (l.resumeAt k + 1)).setSlot k
      none).waiting ⟨k, l.exitAt⟩ = l.context c₀ ⟨r + 1, k, v, vs, ps, .await⟩ := by
  rw [Context.setSlot_eq]
  simp only [context, Context.moved, Context.waiting, modify_push, Context.mk.injEq]
  refine ⟨rfl, rfl, trivial, trivial, ?_, rfl⟩
  simp only [Progress.slots]
  congr 1
  apply Array.ext'
  rw [Array.toList_setIfInBounds, List.set_eq_take_append_cons_drop,
    if_pos (by rw [List.length_map]; exact hps)]
  simp

theorem context_handed {producer : Context} (hps : k ≤ ps.length) :
    ((l.context c₀ ⟨r, k, v, vs, ps, .await⟩).setSlot k (some producer)).awake.swap 0 #[w] =
      l.context c₀ ⟨r, k, v, ws, ps.take k ++ producer :: ps.drop (k + 1), .store w⟩ := by
  have hlen : ((ps.take k).map some).length = k := by
    rw [List.length_map, List.length_take]
    omega
  rw [Context.setSlot_eq]
  simp only [context, Context.awake, Context.swap, modify_push, Context.mk.injEq]
  refine ⟨rfl, ?_, trivial, trivial, ?_, rfl⟩
  · simp only [Progress.stack, Nat.sub_zero]
    apply Array.ext'
    rw [Array.toList_append, Array.toList_shrink,
      List.take_of_length_le (Nat.le_of_eq Array.length_toList)]
    exact (Array.toList_push ..).symm
  · simp only [Progress.slots]
    congr 1
    apply Array.ext'
    rw [Array.toList_setIfInBounds, List.set_append_right _ _ (Nat.le_of_eq hlen), hlen,
      Nat.sub_self, List.set_cons_zero]
    simp

theorem shrink_push {α : Type} (xs : Array α) (x : α) :
    (xs.push x).shrink ((xs.push x).size - 1) = xs := by
  rw [Array.size_push, Nat.add_sub_cancel]
  apply Array.ext'
  rw [Array.toList_shrink, Array.toList_push, List.take_left' Array.length_toList]

theorem context_swap {p : Progress} {ip : Nat} {stack : Array Value}
    (hs : p.stack c₀.stack = stack.push v) :
    ((l.context c₀ p).moved ip).swap 1 #[] =
      ⟨ip, stack, c₀.frames, c₀.calls, c₀.loops.push p.slots, l.pending p⟩ := by
  simp only [context, Context.moved, Context.swap, hs, shrink_push, Array.append_empty]

/-! ## Steps of the context of the loop -/

variable {program : Program} {limits : Limits} {F : Func → Prop} {i : Instruction}
  {m m' : Machine} {seat : Seat} {refs : List Ref} {iterators : List Node} {body : Node}

theorem push_getElem? {α : Type} (xs : Array α) (x : α) : (xs.push x)[xs.size]? = some x := by
  rw [Array.getElem?_push, if_pos rfl]

/-- The context of the loop waits behind a producer that was put before it. -/
theorem Shows.of_pushed {p : Progress} {c : Context} (hp : p.stage = .await) (hf : p.Fits l.count)
    (hr : m.reseat i m.front = m.front) (hcs : m'.consumers = m.consumers.push c)
    (hc : c = l.context c₀ p) : l.Shows c₀ p m' (m.reseat i m.front) := by
  refine ⟨hf, ?_⟩
  rw [hp, hr, hcs, ← hc]
  exact ⟨rfl, push_getElem? _ _⟩

theorem Shows.spawns (hl : l.In program refs iterators body)
    (h : l.Shows c₀ ⟨0, k, v, vs, ps, .advance⟩ m seat)
    (hi : program.instruction? m.active.ip = some i) (hm : Move program F i m m') :
    l.Takes program c₀ i m m' seat ⟨0, k, v, vs, ps, .advance⟩ ⟨0, k, v, vs, ps, .await⟩ ∧
      l.Shows c₀ ⟨0, k, v, vs, ps, .await⟩ m' (m.reseat i seat) := by
  obtain ⟨⟨hk, hvs, hps⟩, rfl, hactive⟩ := h
  obtain ⟨i', hi', hop, hcont, hexit⟩ := hl.spawn hk
  rw [hactive] at hi
  cases hi.symm.trans hi'
  have he : i.effect = .spawn := by rw [Instruction.effect, hop]; rfl
  have hsw := hm.switches
  rw [he] at hsw
  obtain ⟨group, hg, hstart, hcs⟩ := hsw
  have hreseat : m.reseat i m.front = m.front := Machine.reseat_front (by simp [he])
  have hip : m.active.ip = l.spawnAt k := by rw [hactive]; rfl
  rw [hip] at hstart hcs
  refine ⟨.spawn hop hstart, .of_pushed rfl ⟨hk, hvs, hps⟩ hreseat hcs ?_⟩
  rw [hactive] at hg
  have hgroup : group.size = k := by
    rw [context, Array.back?_push] at hg
    cases hg
    simpa [Progress.slots] using hps
  rw [hactive, hcont, hexit, hgroup]
  exact context_spawned hps

theorem Shows.resumes (hl : l.In program refs iterators body) (hs : m.Sound program)
    (h : l.Shows c₀ ⟨r + 1, k, v, vs, ps, .advance⟩ m seat)
    (hi : program.instruction? m.active.ip = some i) (hm : Move program F i m m') :
    l.Takes program c₀ i m m' seat ⟨r + 1, k, v, vs, ps, .advance⟩ ⟨r + 1, k, v, vs, ps, .await⟩ ∧
      l.Shows c₀ ⟨r + 1, k, v, vs, ps, .await⟩ m' (m.reseat i seat) := by
  obtain ⟨⟨hk, hvs, hps⟩, rfl, hactive⟩ := h
  obtain ⟨i', hi', hop, hslotnum, hexit⟩ := hl.resume hk
  rw [hactive] at hi
  cases hi.symm.trans hi'
  have he : i.effect = .resume := by rw [Instruction.effect, hop]; rfl
  have hsw := hm.switches
  rw [he] at hsw
  obtain ⟨producer, hslot, hawake, hcs⟩ := hsw
  have hreseat : m.reseat i m.front = m.front := Machine.reseat_front (by simp [he])
  rw [hslotnum] at hslot hcs
  -- a producer that is parked waits for nothing
  have hparked : Parked program producer := by
    obtain ⟨group, hg, hget⟩ := Option.bind_eq_some_iff.1 hslot
    exact hs.keeps.parked group (by rw [mem_inward]; exact Array.mem_of_back? hg) producer
      (Array.mem_of_getElem? hget)
  have hsame : producer.awake = producer := by
    have := hparked.poised.1.pending
    cases producer
    cases this
    rfl
  have hget : ps[k]? = some producer := by
    rw [hactive, Context.slot?, context, Array.back?_push] at hslot
    simpa [Progress.slots] using hslot
  refine ⟨.resume hop hget (hawake.trans hsame),
    .of_pushed rfl ⟨hk, hvs, hps⟩ hreseat hcs ?_⟩
  have hip : m.active.ip = l.resumeAt k := by rw [hactive]; rfl
  rw [hip, hactive, hexit]
  exact context_resumed (by rw [hps]; exact hk)

theorem opcode_of_endIteration (h : i.effect = .endIteration) : i.opcode = .endIter := by
  obtain ⟨opcode, a, b, c⟩ := i
  cases opcode <;> first | rfl | cases h

theorem front_eq {n : Nat} (hlt : n < m.consumers.size) (hn : m.consumers.size - 1 = n) :
    m.front = ⟨n + 1, []⟩ := by
  rw [Machine.front, show m.consumers.size = n + 1 by omega]

/-- The context of the loop waits on while its producer runs. -/
theorem Shows.waitsOn (hs' : m'.Sound program)
    (h : l.Shows c₀ ⟨r, k, v, vs, ps, .await⟩ m seat) (hm : Move program F i m m')
    (hc' : m'.seat? seat = some (l.context c₀ ⟨r, k, v, vs, ps, .await⟩)) :
    l.Takes program c₀ i m m' seat ⟨r, k, v, vs, ps, .await⟩ ⟨r, k, v, vs, ps, .await⟩ ∧
      l.Shows c₀ ⟨r, k, v, vs, ps, .await⟩ m' seat := by
  obtain ⟨hfits, hpath, hget⟩ := h
  obtain ⟨d, hd, hunder⟩ := Machine.seat?_eq_some.1 hc'
  rw [hpath] at hunder
  cases hunder
  have hlt : seat.level < m'.consumers.size := by
    refine Nat.lt_of_le_of_ne (Machine.le_of_spine hd) fun heq => ?_
    rw [heq, Machine.spine_top] at hd
    have hpending := hs'.active.pending
    rw [Option.some.inj hd] at hpending
    cases hpending
  obtain ⟨hlt₀, -⟩ := Array.getElem?_eq_some_iff.1 hget
  refine ⟨.wait ?_, hfits, hpath, by rwa [Machine.spine_of_lt hlt] at hd⟩
  rcases Nat.lt_or_eq_of_le (show seat.level + 1 ≤ m.consumers.size by omega) with hlt₁ | heq
  · exact Machine.reseat_of_lt hlt₁
  · -- the producer itself takes the step, and it does not yield
    have hfront : (⟨seat.level + 1, []⟩ : Seat) = m.front := by rw [heq]; rfl
    have hy : i.effect ≠ .yield := by
      intro he
      have hsw := hm.switches
      rw [he] at hsw
      obtain ⟨-, -, -, -, -, -, hcs, -⟩ := hsw
      rw [hcs, Array.size_pop] at hlt
      omega
    rw [hfront]
    exact Machine.reseat_front hy

theorem Shows.waits {c' : Context} (hs : m.Sound program) (hs' : m'.Sound program)
    (h : l.Shows c₀ ⟨r, k, v, vs, ps, .await⟩ m seat) (hm : Move program F i m m')
    (hc' : m'.seat? (m.reseat i seat) = some c') :
    (∃ p', l.Takes program c₀ i m m' seat ⟨r, k, v, vs, ps, .await⟩ p' ∧
      l.Shows c₀ p' m' (m.reseat i seat)) ∨ c'.calls.size < c₀.calls.size := by
  obtain ⟨⟨hk, hvs, hps⟩, hpath, hget⟩ := h
  dsimp only at hk hvs hps
  obtain ⟨hlt, -⟩ := Array.getElem?_eq_some_iff.1 hget
  have hreseat : m.reseat i seat = seat := Machine.reseat_of_lt hlt
  have hc : m.seat? seat = some (l.context c₀ ⟨r, k, v, vs, ps, .await⟩) :=
    Machine.seat?_eq_some.2 ⟨_, by rw [Machine.spine_of_lt hlt, hget], by rw [hpath]; rfl⟩
  have hback : ∀ {consumer}, m.consumers.back? = some consumer →
      m'.consumers = m.consumers.pop → seat.level = m'.consumers.size →
      m.front = ⟨seat.level + 1, []⟩ ∧ seat = m'.front ∧
        consumer = l.context c₀ ⟨r, k, v, vs, ps, .await⟩ := by
    intro consumer hb hcs hlevel
    rw [hcs, Array.size_pop] at hlevel
    refine ⟨front_eq hlt hlevel.symm, ?_, ?_⟩
    · rw [Machine.front, hcs, Array.size_pop, ← hlevel, ← hpath]
    · rw [Array.back?_eq_getElem?, ← hlevel, hget] at hb
      exact (Option.some.inj hb).symm
  cases hm.followed hs hc hc' with
  | same heq =>
    rw [heq, hreseat] at hc'
    rw [hreseat]
    exact .inl ⟨_, Shows.waitsOn hs' ⟨⟨hk, hvs, hps⟩, hpath, hget⟩ hm hc'⟩
  | turned hfront => exact absurd (congrArg Seat.level hfront) (Nat.ne_of_lt hlt)
  | woken _ _ _ hlevel hactive hwake =>
    rw [hreseat]
    have hsw := hm.switches
    cases hwake with
    | yield he hp =>
      rw [he] at hsw
      obtain ⟨consumer, p, w, hval, hb, hp, hcs, hactive'⟩ := hsw
      obtain ⟨hfront, hseat, rfl⟩ := hback hb hcs hlevel
      cases hp
      have htakes : i.takes = i.b.cells := by rw [Instruction.takes, he]
      have hle : k ≤ ps.length := by
        split at hps <;> omega
      have hhanded : m'.active = l.context c₀ ⟨r, k, v, vs ++ [w], _, .store w⟩ :=
        hactive'.trans (context_handed hle)
      rw [htakes] at hhanded
      refine .inl ⟨_, .hand hfront (Instruction.opcode_of_yield he) hval, ⟨hk, ?_, ?_, ?_⟩, hseat, hhanded⟩
      · rw [List.length_append, hvs]
        rfl
      · rw [← hvs]
        exact List.getElem?_concat_length
      · simp only [List.length_append, List.length_cons, List.length_take, List.length_drop]
        split at hps <;> split <;> omega
    | endIteration he hp =>
      rw [he] at hsw
      obtain ⟨consumer, p, hb, hp, hcs, hactive'⟩ := hsw
      obtain ⟨hfront, hseat, rfl⟩ := hback hb hcs hlevel
      cases hp
      exact .inl ⟨_, .drop hfront (opcode_of_endIteration he), ⟨hk, hvs, hps⟩, hseat,
        hactive'⟩
    | leave he hr =>
      refine .inr ?_
      have hpos : 0 < c₀.calls.size := by
        obtain ⟨hlt, -⟩ := Array.getElem?_eq_some_iff.1 (Array.back?_eq_getElem? ▸ hr)
        exact Nat.lt_of_le_of_lt (Nat.zero_le _) hlt
      rw [Context.leave_eq]
      show (c₀.calls.pop).size < _
      rw [Array.size_pop]
      omega

theorem In.isVariable {target : Operand} (hl : l.In program refs iterators body)
    (h : l.targets[k]? = some target) : target.isVariable := by
  have hlt := (List.getElem?_eq_some_iff.1 h).1
  have hlen := hl.refs.length_eq
  have hvar := hl.refs.get (i := k) (by omega) hlt
  rw [List.get_eq_getElem, List.get_eq_getElem, (List.getElem?_eq_some_iff.1 h).2] at hvar
  generalize refs[k] = ref at hvar
  cases ref with
  | own | outer =>
    rw [show target = _ from hvar]
    rfl
  | global =>
    obtain ⟨n, rfl, -⟩ := hvar
    rfl

theorem received_of_isVariable {o : Operand} (h : o.isVariable) : o.received w = #[] := by
  obtain ⟨mode, address⟩ := o
  cases mode <;> first | rfl | cases h

/-- The store of a value that producer `k` has handed over. -/
theorem In.storeAt (hl : l.In program refs iterators body) (hk : k < l.count) :
    ∃ target, l.targets[k]? = some target ∧
      program.instruction? (l.place ⟨r, k, v, vs, ps, .store w⟩) =
        some ⟨.move, target, .stack, .unused⟩ := by
  unfold place
  dsimp only
  split
  · exact hl.take hk
  · exact hl.retake hk

theorem afterStore_cases (r : Nat) (hk : k < l.count) :
    l.afterStore r k = .advance ∧ k + 1 < l.count ∨
      l.afterStore r k = .pass ∧ k + 1 = l.count ∧ r = 0 ∨
      l.afterStore r k = .again ∧ k + 1 = l.count ∧ r ≠ 0 := by
  unfold afterStore
  split
  · next hlt => exact .inl ⟨rfl, hlt⟩
  · next hge =>
    split
    · next hr => exact .inr (.inl ⟨rfl, by omega, hr⟩)
    · next hr => exact .inr (.inr ⟨rfl, by omega, hr⟩)

theorem In.place_afterStore (hl : l.In program refs iterators body) (hk : k < l.count) :
    l.place ⟨r, k, v, vs, ps, .store w⟩ + 1 =
      l.place ⟨r, k + 1, v, ws, ps, l.afterStore r k⟩ := by
  have htake := hl.takeAt_succ hk
  have hretake := l.retakeAt_succ (k := k)
  unfold place
  rcases afterStore_cases r hk with ⟨hs, -⟩ | ⟨hs, hlast, hr⟩ | ⟨hs, hlast, hr⟩ <;> rw [hs]
  · dsimp only
    split <;> assumption
  · subst hr
    exact htake.trans (congrArg l.spawnAt hlast)
  · dsimp only
    rw [if_neg hr, hretake, hlast]

theorem fits_afterStore (hk : k < l.count) (hvs : vs.length = k + 1)
    (hps : ps.length = if r = 0 then k + 1 else l.count) :
    Progress.Fits l.count ⟨r, k + 1, v, vs, ps, l.afterStore r k⟩ := by
  unfold Progress.Fits
  rcases afterStore_cases r hk with ⟨hs, hlt⟩ | ⟨hs, hlast, hr⟩ | ⟨hs, hlast, hr⟩ <;> rw [hs]
  · exact ⟨hlt, hvs, hps⟩
  · rw [if_pos hr] at hps
    exact ⟨hlast, hvs.trans hlast, hps.trans hlast⟩
  · rw [if_neg hr] at hps
    exact ⟨hr, hlast, hvs.trans hlast, hps⟩

/-- Stages that show the context as the active one, with the value of the loop on top. -/
theorem Shows.of_active {p : Progress} (hf : p.Fits l.count) (hseat : seat = m'.front)
    (ha : m'.active = l.context c₀ p) (hw : p.stage ≠ .await) (hb : p.stage ≠ .body) :
    l.Shows c₀ p m' seat := by
  refine ⟨hf, ?_⟩
  cases hp : p.stage with
  | await => exact absurd hp hw
  | body => exact absurd hp hb
  | _ => exact ⟨hseat, ha⟩

theorem Shows.stores (hl : l.In program refs iterators body)
    (h : l.Shows c₀ ⟨r, k, v, vs, ps, .store w⟩ m seat)
    (hi : program.instruction? m.active.ip = some i)
    (hstep : m.step program limits = .running m') :
    l.Takes program c₀ i m m' seat ⟨r, k, v, vs, ps, .store w⟩
        ⟨r, k + 1, v, vs, ps, l.afterStore r k⟩ ∧
      l.Shows c₀ ⟨r, k + 1, v, vs, ps, l.afterStore r k⟩ m' (m.reseat i seat) := by
  obtain ⟨⟨hk, hvs, -, hps⟩, rfl, hactive⟩ := h
  obtain ⟨target, htarget, hi'⟩ := hl.storeAt (r := r) (v := v) hk
  rw [hactive] at hi
  cases hi.symm.trans hi'
  have hvar := hl.isVariable htarget
  have hat : m.At (l.context c₀ ⟨r, k, v, vs, ps, .store w⟩) m.consumers m.world :=
    ⟨hactive, rfl, rfl⟩
  have hlook : m.world.look program (l.context c₀ ⟨r, k, v, vs, ps, .store w⟩) .stack = some w :=
    Array.back?_push
  obtain ⟨w', hput, hat'⟩ := hat.stores (f := id) hi' rfl hlook hstep
  dsimp only at hat'
  rw [id, received_of_isVariable hvar, show Operand.stack.cells = 1 from rfl, context_swap (v := w) rfl] at hat'
  have hstage := afterStore_cases r hk
  refine ⟨.store rfl htarget ?_, .of_active (fits_afterStore hk hvs hps) ?_ ?_ ?_ ?_⟩
  · rw [reads?, htarget, hat'.world]
    exact World.look_put (c := c₀) hvar ((World.put?_of_frames hvar rfl).trans hput)
  · rw [Machine.reseat_front (by simp [Instruction.effect, Opcode.effect]), Machine.front,
      Machine.front, hat'.consumers]
  · rw [hat'.active]
    unfold context
    rw [Context.mk.injEq]
    refine ⟨hl.place_afterStore hk, ?_, rfl, rfl, ?_, ?_⟩ <;>
      rcases hstage with ⟨hs, -⟩ | ⟨hs, -⟩ | ⟨hs, -⟩ <;> rw [hs] <;> rfl
  all_goals rcases hstage with ⟨hs, -⟩ | ⟨hs, -⟩ | ⟨hs, -⟩ <;> simp [hs]

theorem Shows.jumpsBack (hl : l.In program refs iterators body)
    (h : l.Shows c₀ ⟨r, k, v, vs, ps, .again⟩ m seat)
    (hi : program.instruction? m.active.ip = some i) (hm : Move program F i m m') :
    l.Takes program c₀ i m m' seat ⟨r, k, v, vs, ps, .again⟩ ⟨r, k, v, vs, ps, .pass⟩ ∧
      l.Shows c₀ ⟨r, k, v, vs, ps, .pass⟩ m' (m.reseat i seat) := by
  obtain ⟨⟨-, hcomplete⟩, rfl, hactive⟩ := h
  obtain ⟨-, -, -, -, -, -, ⟨i', hi', hop, htarget⟩, -⟩ := hl.parts
  rw [hactive] at hi
  cases hi.symm.trans hi'
  have he : i.effect = .jump := by rw [Instruction.effect, hop]; rfl
  have hsw := hm.switches
  rw [he] at hsw
  obtain ⟨hcs, t, ws, ht, hsize, hactive'⟩ := hsw
  rw [Instruction.Lands, he] at ht
  rw [Instruction.gives, he] at hsize
  rw [Instruction.takes, he, Array.eq_empty_of_size_eq_zero hsize, Context.swap_zero] at hactive'
  refine ⟨.again hop, .of_active hcomplete ?_ ?_ (by simp) (by simp)⟩
  · rw [Machine.reseat_front (by simp [he]), Machine.front, Machine.front, hcs]
  · have hip : m.active.ip = l.resumeAt l.count := by rw [hactive]; rfl
    rw [hactive', ht, hip, htarget, hactive]
    rfl

/-- The body starts on what the loop found, below its group. -/
theorem Shows.passes (hl : l.In program refs iterators body)
    (h : l.Shows c₀ ⟨r, k, v, vs, ps, .pass⟩ m seat)
    (hi : program.instruction? m.active.ip = some i) (hm : Move program F i m m') :
    l.Takes program c₀ i m m' seat ⟨r, k, v, vs, ps, .pass⟩ ⟨r, k, v, vs, ps, .body⟩ ∧
      m.reseat i seat = m'.front ∧ m'.active = l.context c₀ ⟨r, k, v, vs, ps, .body⟩ := by
  obtain ⟨-, rfl, hactive⟩ := h
  obtain ⟨-, -, -, hi', -⟩ := hl.parts
  rw [hactive] at hi
  cases hi.symm.trans hi'
  have hsw := hm.switches
  obtain ⟨hcs, t, ws, ht, hsize, hactive'⟩ := hsw
  cases Array.eq_empty_of_size_eq_zero hsize
  refine ⟨.pass rfl, ?_, ?_⟩
  · rw [Machine.reseat_front (by simp [Instruction.effect, Instruction.bare, Opcode.effect]),
      Machine.front, Machine.front, hcs]
  · have hip : m.active.ip = l.passAt := by rw [hactive]; rfl
    rw [hactive', show t = m.active.ip + 1 from ht, hip, hactive]
    exact context_swap rfl

/-- The loop is closed, with its value on the stack. -/
theorem Shows.closes (hl : l.In program refs iterators body) (hc₀ : c₀.pending = none)
    (h : l.Shows c₀ ⟨r, k, v, vs, ps, .leave⟩ m seat)
    (hi : program.instruction? m.active.ip = some i) (hm : Move program F i m m') :
    i.opcode = .iterEnd ∧ m'.consumers = m.consumers ∧ m.reseat i seat = m'.front ∧
      m'.active = { c₀ with ip := l.exitAt + 1, stack := c₀.stack.push v } := by
  obtain ⟨-, rfl, hactive⟩ := h
  obtain ⟨-, -, -, -, -, -, -, hi'⟩ := hl.parts
  rw [hactive] at hi
  cases hi.symm.trans hi'
  obtain ⟨hcs, hactive'⟩ := hm.switches
  refine ⟨rfl, hcs, ?_, ?_⟩
  · rw [Machine.reseat_front (by simp [Instruction.effect, Instruction.bare, Opcode.effect]),
      Machine.front, Machine.front, hcs]
  · have hip : m.active.ip = l.exitAt := by rw [hactive]; rfl
    rw [hactive', hip, hactive, Context.closeGroup_eq, hc₀]
    simp only [context, Context.moved, Array.pop_push]
    rfl

/-- An execution begins with nil as its value, and with an empty group. -/
theorem In.opens (hl : l.In program refs iterators body) (hs : m.Sound program)
    (hbase : m.active.ip = l.base) (hcount : 0 < l.count)
    (hrun : Machine.run program limits 2 m = .running m') :
    l.Shows m.active .start m' m'.front ∧ m'.front = m.front := by
  obtain ⟨hmove, hbegin, -⟩ := hl.parts
  have hnil : m.world.look program m.active l.nil = some .nil := by
    obtain ⟨n, hn, hget⟩ := hl.nil
    rw [hn]
    exact (Action.at?_natCast _ n).trans hget
  have hat : (m.step program limits).At limits _ _ _ _ := m.at_self.step (hbase ▸ hmove) rfl
    fun m₁ h₁ => Action.unary_at (f := id) h₁ hnil rfl
  have hsound := hs.step limits
  rw [Machine.run_succ] at hrun
  generalize m.step program limits = st at hat hsound hrun
  cases hsound with
  | @running m₁ _ _ _ hs₁ =>
    have hactive₁ : m₁.active = (m.active.moved (l.base + 1)).swap 0 #[.nil] := by
      rw [hat.active, ← hbase, show l.nil.cells = 0 from hl.nil.cells]
      rfl
    have hsound₁ := hs₁.step limits
    rw [Machine.run_one.symm.trans hrun] at hsound₁
    cases hsound₁ with
    | running hi hm _ =>
      rw [hactive₁] at hi
      cases hi.symm.trans hbegin
      obtain ⟨hcs, hactive⟩ := hm.switches
      have hcs' : m'.consumers = m.consumers := hcs.trans hat.consumers
      refine ⟨.of_active ⟨hcount, rfl, rfl⟩ rfl ?_ (by simp [Progress.start])
        (by simp [Progress.start]), by rw [Machine.front, Machine.front, hcs']⟩
      have hip : l.spawnAt 0 = l.base + 1 + 1 := l.spawnAt_zero
      rw [hactive, hactive₁]
      simp only [context, Context.moved, Context.swap, Context.mk.injEq, hs.active.pending]
      refine ⟨hip.symm, ?_, trivial, trivial, rfl, rfl⟩
      apply Array.ext'
      simp [Progress.stack, Progress.start]
  | finished | exited | faulted => cases hrun

end Loop

end YieldMachine
