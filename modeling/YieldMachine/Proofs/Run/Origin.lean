import YieldMachine.Proofs.Flow.Session
import YieldMachine.Proofs.Run.Seat

/-!
# Where contexts and calls come from

Every context behind a step was there before it, but for a producer that is spawned. So a
call that a context is in was made by some step of the run, and the context has been
followed since.

    Move.origin   a seat behind a step is that of a context before it
    Sound.begun   a call that a context is in was made by a step of the run
-/

namespace YieldMachine

variable {program : Program} {limits : Limits} {F : Func → Prop} {i : Instruction}
  {m m' : Machine} {seat : Seat} {c' d d' : Context}

/-! ## Contexts -/

/-- The way down to a context of the second machine leads to one in the first machine too. -/
theorem Machine.seat?_of_covers (hd : m.spine[seat.level]? = some d)
    (hd' : m'.spine[seat.level]? = some d') (h : Context.Covers d d')
    (hc' : m'.seat? seat = some c') : ∃ c, m.seat? seat = some c := by
  obtain ⟨e, he, hunder⟩ := Machine.seat?_eq_some.1 hc'
  cases hd'.symm.trans he
  cases hpath : seat.path with
  | nil => exact ⟨d, Machine.seat?_eq_some.2 ⟨d, hd, by rw [hpath]; rfl⟩⟩
  | cons place path =>
    rw [hpath] at hunder
    obtain ⟨p, hp, hunder⟩ := Option.bind_eq_some_iff.1 hunder
    refine ⟨c', Machine.seat?_eq_some.2 ⟨d, hd, ?_⟩⟩
    rw [hpath]
    exact Option.bind_eq_some_iff.2 ⟨p, h place p hp, hunder⟩

/-- Contexts that a machine has in common with another one behind its active context. -/
theorem Machine.seat?_of_consumers (h : m'.consumers[seat.level]? = m.consumers[seat.level]?)
    (hlt : seat.level < m'.consumers.size) (hc' : m'.seat? seat = some c') :
    ∃ c, m.seat? seat = some c := by
  obtain ⟨d, hd⟩ : ∃ d, m'.consumers[seat.level]? = some d :=
    ⟨_, Array.getElem?_eq_getElem hlt⟩
  have hd₀ := h ▸ hd
  obtain ⟨hlt₀, -⟩ := Array.getElem?_eq_some_iff.1 hd₀
  exact Machine.seat?_of_covers (by rw [Machine.spine_of_lt hlt₀, hd₀])
    (by rw [Machine.spine_of_lt hlt, hd]) (Context.Covers.of_loops rfl) hc'

/-- A context that was there before a step, or was spawned by it. -/
def Machine.Stems (i : Instruction) (m m' : Machine) (seat' : Seat) (c' : Context) : Prop :=
  (∃ seat c, m.seat? seat = some c ∧ m.reseat i seat = seat') ∨
    (i.effect = .spawn ∧ seat' = m'.front ∧
      c' = .start (m.active.ip + 1) m.active.frames.addressable)

/-- The active context changes, and those behind it stay as they are. -/
theorem Machine.Stems.of_top (hy : i.effect ≠ .yield) (hr : i.effect ≠ .resume)
    (hcs : ∀ k, k < m'.consumers.size → m'.consumers[k]? = m.consumers[k]?)
    (hd : m.spine[m'.consumers.size]? = some d) (h : Context.Covers d m'.active)
    (hc' : m'.seat? seat = some c') : m.Stems i m' seat c' := by
  obtain ⟨e, he, -⟩ := Machine.seat?_eq_some.1 hc'
  refine .inl ?_
  rcases Nat.lt_or_eq_of_le (Machine.le_of_spine he) with hlt | heq
  · obtain ⟨c, hc⟩ := Machine.seat?_of_consumers (hcs _ hlt) hlt hc'
    exact ⟨seat, c, hc, Machine.reseat_of_ne hy hr⟩
  · obtain ⟨c, hc⟩ := Machine.seat?_of_covers (heq ▸ hd) (heq ▸ Machine.spine_top) h hc'
    exact ⟨seat, c, hc, Machine.reseat_of_ne hy hr⟩

/-- A producer that is spawned stands before the context that spawns it. -/
theorem Machine.Stems.of_spawn {consumer : Context} (he : i.effect = .spawn)
    (hcs : m'.consumers = m.consumers.push consumer) (h : Context.Covers m.active consumer)
    (ha : m'.active = .start (m.active.ip + 1) m.active.frames.addressable)
    (hc' : m'.seat? seat = some c') : m.Stems i m' seat c' := by
  have hsize : m'.consumers.size = m.consumers.size + 1 := by rw [hcs, Array.size_push]
  have hreseat : m.reseat i seat = seat := Machine.reseat_of_ne (by rw [he]; nofun) (by rw [he]; nofun)
  obtain ⟨e, he', hunder⟩ := Machine.seat?_eq_some.1 hc'
  have hle := Machine.le_of_spine he'
  rcases Nat.lt_trichotomy seat.level m.consumers.size with hlt | heq | hgt
  · obtain ⟨c, hc⟩ := Machine.seat?_of_consumers (m := m)
      (by rw [hcs, Array.getElem?_push, if_neg (by omega)]) (by omega) hc'
    exact .inl ⟨seat, c, hc, hreseat⟩
  · have hwaits : m'.spine[seat.level]? = some consumer := by
      rw [Machine.spine_of_lt (by omega), hcs, Array.getElem?_push, if_pos heq]
    obtain ⟨c, hc⟩ := Machine.seat?_of_covers (heq.symm ▸ Machine.spine_top) hwaits h hc'
    exact .inl ⟨seat, c, hc, hreseat⟩
  · obtain ⟨level, path⟩ := seat
    dsimp only at hgt hle hunder he'
    obtain rfl : level = m'.consumers.size := by omega
    rw [Machine.spine_top, ha] at he'
    cases he'
    cases path with
    | nil =>
      cases hunder
      exact .inr ⟨he, rfl, rfl⟩
    | cons place path =>
      obtain ⟨q, hq, -⟩ := Option.bind_eq_some_iff.1 hunder
      simp [Context.slotAt?, Context.start] at hq

/-- A producer that is parked was at the front. -/
theorem Machine.Stems.of_yield {consumer : Context} {p : Pending} {v : Value}
    (he : i.effect = .yield) (hb : m.consumers.back? = some consumer)
    (hp : consumer.pending = some p) (hcs : m'.consumers = m.consumers.pop)
    (ha : m'.active = ((consumer.setSlot p.slot
      (some ((m.active.moved (m.active.ip + 1)).swap i.takes #[]).awake)).awake).swap 0 #[v])
    (hc' : m'.seat? seat = some c') : m.Stems i m' seat c' := by
  have hlast : m.consumers[m.consumers.size - 1]? = some consumer := by
    rwa [← Array.back?_eq_getElem?]
  obtain ⟨hpos, -⟩ := Array.getElem?_eq_some_iff.1 hlast
  have hsize : m'.consumers.size = m.consumers.size - 1 := by rw [hcs, Array.size_pop]
  have hplace : m.place = (consumer.loops.size - 1, p.slot) := by
    rw [Machine.place, hb, Option.map_some, Option.getD_some, Context.place, hp]
    rfl
  obtain ⟨e, he', hunder⟩ := Machine.seat?_eq_some.1 hc'
  refine .inl ?_
  rcases Nat.lt_or_eq_of_le (Machine.le_of_spine he') with hlt | heq
  · obtain ⟨c, hc⟩ := Machine.seat?_of_consumers (m := m)
      (by rw [hcs, Array.getElem?_pop, if_pos (by omega)]) hlt hc'
    refine ⟨seat, c, hc, ?_⟩
    rw [Machine.reseat_yield he, if_neg (by omega)]
  have hbehind : m.spine[seat.level]? = some consumer := by
    rw [Machine.spine_of_lt (by omega), heq, hsize, hlast]
  have hsame : ∀ {c}, m.seat? seat = some c → ∃ seat₀ c₀, m.seat? seat₀ = some c₀ ∧
      m.reseat i seat₀ = seat := by
    intro c hc
    refine ⟨seat, c, hc, ?_⟩
    rw [Machine.reseat_yield he, if_neg (by omega)]
  obtain ⟨level, path⟩ := seat
  dsimp only at heq hbehind hunder he'
  cases path with
  | nil => exact hsame (Machine.seat?_eq_some.2 ⟨consumer, hbehind, rfl⟩)
  | cons place path =>
    rw [heq, Machine.spine_top, ha] at he'
    cases he'
    obtain ⟨q, hq, hunder⟩ := Option.bind_eq_some_iff.1 hunder
    rw [Context.slotAt?_swap, Context.slotAt?_awake] at hq
    rcases Context.slotAt?_setSlot hq with ⟨rfl, hput⟩ | ⟨-, hq⟩
    · -- the slot is the one that the producer is parked in
      cases hput
      have hfront : ∃ c, m.active.under? path = some c := by
        cases path with
        | nil => exact ⟨_, rfl⟩
        | cons place' path => exact ⟨_, hunder⟩
      obtain ⟨c, hc⟩ := hfront
      refine ⟨⟨m.consumers.size, path⟩, c, Machine.seat?_eq_some.2 ⟨_, Machine.spine_top, hc⟩, ?_⟩
      rw [Machine.reseat_yield he, if_pos rfl, hplace, heq, hsize]
    · exact hsame (Machine.seat?_eq_some.2 ⟨consumer, hbehind,
        Option.bind_eq_some_iff.2 ⟨q, hq, hunder⟩⟩)

/-- A producer that goes on was parked. -/
theorem Machine.Stems.of_resume {producer : Context} {p : Pending} (he : i.effect = .resume)
    (hslot : m.active.slot? i.a.address.toNat = some (some producer))
    (hcs : m'.consumers = m.consumers.push (((m.active.moved (m.active.ip + 1)).setSlot
      i.a.address.toNat none).waiting p))
    (ha : m'.active = producer.awake) (hc' : m'.seat? seat = some c') : m.Stems i m' seat c' := by
  have hsize : m'.consumers.size = m.consumers.size + 1 := by rw [hcs, Array.size_push]
  obtain ⟨e, he', hunder⟩ := Machine.seat?_eq_some.1 hc'
  have hle := Machine.le_of_spine he'
  have hstays : seat.level ≠ m.consumers.size → ∀ {c}, m.seat? seat = some c →
      ∃ seat₀ c₀, m.seat? seat₀ = some c₀ ∧ m.reseat i seat₀ = seat := by
    intro hne c hc
    refine ⟨seat, c, hc, ?_⟩
    rw [Machine.reseat_resume he, if_neg fun h => hne h.1]
  refine .inl ?_
  obtain ⟨level, path⟩ := seat
  dsimp only at hle hunder he' hstays
  rcases Nat.lt_trichotomy level m.consumers.size with hlt | rfl | hgt
  · obtain ⟨c, hc⟩ : ∃ c, m.seat? ⟨level, path⟩ = some c := Machine.seat?_of_consumers
      (by rw [hcs, Array.getElem?_push, if_neg (by dsimp only; omega)]) (by dsimp only; omega) hc'
    exact hstays (by omega) hc
  · rw [Machine.spine_of_lt (by omega), hcs, Array.getElem?_push, if_pos rfl] at he'
    cases he'
    cases path with
    | nil =>
      refine ⟨⟨_, []⟩, m.active, Machine.seat?_front, ?_⟩
      rw [Machine.reseat_resume he, if_neg (by simp)]
    | cons place path =>
      obtain ⟨q, hq, hunder⟩ := Option.bind_eq_some_iff.1 hunder
      rw [Context.slotAt?_waiting] at hq
      rcases Context.slotAt?_setSlot hq with ⟨-, h⟩ | ⟨hne, hq⟩
      · cases h
      · refine ⟨⟨m.consumers.size, place :: path⟩, c', Machine.seat?_eq_some.2 ⟨_, Machine.spine_top,
          Option.bind_eq_some_iff.2 ⟨q, hq, hunder⟩⟩, ?_⟩
        rw [Machine.reseat_resume he, if_neg fun h => hne (Option.some.inj h.2)]
  · obtain rfl : level = m.consumers.size + 1 := by omega
    rw [← hsize, Machine.spine_top, ha] at he'
    cases he'
    have hparked : ∃ c, producer.under? path = some c := by
      cases path with
      | nil => exact ⟨_, rfl⟩
      | cons place path => exact ⟨_, hunder⟩
    obtain ⟨c, hc⟩ := hparked
    refine ⟨⟨m.consumers.size, (m.active.loops.size - 1, i.a.address.toNat) :: path⟩, c,
      Machine.seat?_eq_some.2 ⟨_, Machine.spine_top, Option.bind_eq_some_iff.2
        ⟨producer, Context.slotAt?_of_slot? hslot, hc⟩⟩, ?_⟩
    rw [Machine.reseat_resume he, if_pos ⟨rfl, rfl⟩]
    rfl

/-- A context behind a step was there before it, or is a producer that is spawned. -/
theorem Move.origin (hm : Move program F i m m') (hc' : m'.seat? seat = some c') :
    m.Stems i m' seat c' := by
  have hne : ∀ e : Effect, i.effect = e → e ≠ .yield → e ≠ .resume →
      i.effect ≠ .yield ∧ i.effect ≠ .resume := by
    rintro e rfl hy hr
    exact ⟨hy, hr⟩
  cases hm with
  | stay hl ht hk hv =>
    refine .of_top ?_ ?_ (fun _ _ => rfl) Machine.spine_top (Context.Covers.of_loops rfl) hc'
    · rintro h
      rw [h] at hl
      exact hl
    · rintro h
      rw [h] at hl
      exact hl
  | enter he hf =>
    obtain ⟨hy, hr⟩ := hne _ he nofun nofun
    refine .of_top hy hr (fun _ _ => rfl) Machine.spine_top (Context.Covers.of_loops ?_) hc'
    rw [Context.enter_eq]
    rfl
  | @ret c₀ c₁ cs cs' gone r v g hp co j j' he hval hv hl hrec =>
    obtain ⟨hy, hr⟩ := hne _ he nofun nofun
    obtain ⟨-, ⟨rfl, rfl⟩ | ⟨-, k, consumer, hk, rfl, hcs, -⟩⟩ := Action.leaveProducers_eq_some hl
    · exact .of_top hy hr (fun _ _ => rfl) Machine.spine_top
        (Context.Covers.leave (c := (c₀.moved (c₀.ip + 1)).swap i.takes #[]) r) hc'
    · obtain ⟨hlt, -⟩ := Array.getElem?_eq_some_iff.1 hk
      have hsize : cs'.size = k := by
        rw [← Array.length_toList, hcs, List.length_take, Array.length_toList]
        omega
      refine .of_top hy hr (fun n hn => ?_) (d := consumer) ?_
        (Context.Covers.leave (c := consumer.awake) r) hc'
      · rw [← Array.getElem?_toList, hcs, List.getElem?_take, if_pos (hsize ▸ hn),
          Array.getElem?_toList]
      · dsimp only
        rw [hsize, Machine.spine_of_lt hlt, hk]
  | openGroup he =>
    obtain ⟨hy, hr⟩ := hne _ he nofun nofun
    exact .of_top hy hr (fun _ _ => rfl) Machine.spine_top Context.Covers.openGroup hc'
  | @spawn c cs group g hp co j j' he hg =>
    exact .of_spawn he rfl (Context.Covers.openSlot (c := c)) rfl hc'
  | yield he hval hv hb hp hs => exact .of_yield he hb hp rfl rfl hc'
  | resume he hs => exact .of_resume he hs rfl rfl hc'
  | @endIteration c₀ consumer cs p g hp co j j' he hb hwaits =>
    obtain ⟨hy, hr⟩ := hne _ he nofun nofun
    have hlast : cs[cs.size - 1]? = some consumer := by rwa [← Array.back?_eq_getElem?]
    obtain ⟨hlt, -⟩ := Array.getElem?_eq_some_iff.1 hlast
    refine .of_top hy hr (fun n hn => ?_) (d := consumer) ?_ (Context.Covers.of_loops rfl) hc'
    · rw [Array.size_pop] at hn
      rw [Array.getElem?_pop, if_pos hn]
    · rw [Array.size_pop, Machine.spine_of_lt hlt, hlast]
  | @closeGroup c cs group g hp co j j' he hg =>
    obtain ⟨hy, hr⟩ := hne _ he nofun nofun
    exact .of_top hy hr (fun _ _ => rfl) Machine.spine_top
      (Context.Covers.closeGroup (c := c.moved (c.ip + 1))) hc'

/-! ## Calls -/

/-- The machine calls a function and enters its body. -/
def Machine.Enters (program : Program) (limits : Limits) (m : Machine) (f : Func)
    (m₁ : Machine) : Prop :=
  ∃ i, program.instruction? m.active.ip = some i ∧ i.opcode = .call ∧
    m.value? program i.b = some (.function f) ∧ m.step program limits = .running m₁ ∧
    m.active.calls.size < m₁.active.calls.size

/-- The machine calls a function, and the context of the call has been followed to a seat of
another machine, with the call in it. -/
def Machine.Calls (program : Program) (limits : Limits) (m : Machine) (f : Func) (m' : Machine)
    (seat : Seat) : Prop :=
  ∃ m₁ n, m.Enters program limits f m₁ ∧
    m₁.follow program limits (fun c => m.active.calls.size < c.calls.size) n m.front =
      some (m', seat)

variable {n d : Nat} {c : Context} {f : Func}

theorem Instruction.opcode_of_call (h : i.effect = .call) : i.opcode = .call := by
  obtain ⟨opcode, a, b, c⟩ := i
  cases opcode <;> first | rfl | cases h

/-- Only calls make the calls of a context more. -/
theorem Context.Turn.effect_of_lt {c d : Context} (h : c.Turn F i d)
    (hlt : c.calls.size < d.calls.size) : i.effect = .call := by
  cases h with
  | enter he => exact he
  | stay | openGroup | yield => exact absurd hlt (Nat.lt_irrefl _)
  | leave =>
    rw [Context.leave_eq] at hlt
    simp only [Context.moved, Context.swap, Array.size_pop] at hlt
    omega
  | spawn =>
    rw [Context.openSlot_eq] at hlt
    exact absurd hlt (Nat.lt_irrefl _)
  | resume =>
    rw [Context.setSlot_eq] at hlt
    exact absurd hlt (Nat.lt_irrefl _)
  | closeGroup =>
    rw [Context.closeGroup_eq] at hlt
    exact absurd hlt (Nat.lt_irrefl _)

theorem Context.Wake.size_calls {c d : Context} (h : c.Wake i d) :
    d.calls.size ≤ c.calls.size := by
  cases h with
  | yield =>
    rw [Context.setSlot_eq]
    exact Nat.le_refl _
  | endIteration => exact Nat.le_refl _
  | leave =>
    rw [Context.leave_eq]
    simp only [Context.moved, Context.swap, Context.awake, Array.size_pop]
    omega

theorem Machine.run_last (h : Machine.run program limits (n + 1) m = .running m') :
    ∃ m₁, Machine.run program limits n m = .running m₁ ∧ m₁.step program limits = .running m' := by
  rw [Machine.run_add] at h
  split at h
  · next m₁ hrun => exact ⟨m₁, hrun, Machine.run_one ▸ h⟩
  · next hend => exact absurd h (hend m')

theorem Machine.follow_last {keep : Context → Bool} {seat₀ : Seat} {m₀ : Machine}
    (h : m₀.follow program limits keep n seat₀ = some (m, seat))
    (hi : program.instruction? m.active.ip = some i) (hstep : m.step program limits = .running m')
    (hc : m'.seat? (m.reseat i seat) = some c) (hkeep : keep c = true) :
    m₀.follow program limits keep (n + 1) seat₀ = some (m', m.reseat i seat) := by
  rw [Machine.follow_add, h, Option.bind_some]
  unfold Machine.follow
  dsimp only
  rw [hi, hstep]
  dsimp only
  rw [if_pos ((Option.any_eq_true _ _).2 ⟨c, hc, hkeep⟩)]
  rfl

theorem Machine.Calls.step (h : m.Calls program limits f m' seat) {m'' : Machine}
    (hi : program.instruction? m'.active.ip = some i) (hstep : m'.step program limits = .running m'')
    (hc : m''.seat? (m'.reseat i seat) = some c) (hd : m.active.calls.size < c.calls.size) :
    m.Calls program limits f m'' (m'.reseat i seat) := by
  obtain ⟨m₁, n, henters, hlives⟩ := h
  exact ⟨m₁, n + 1, henters, Machine.follow_last hlives hi hstep hc (decide_eq_true hd)⟩

/-- By induction on the run: a call that a context is in was in it before the last step, or
is made by that step. -/
theorem Machine.Sound.begun (h : m.Sound program)
    (hempty : ∀ seat c, m.seat? seat = some c → c.calls = #[])
    (hrun : Machine.run program limits n m = .running m') (hc : m'.seat? seat = some c)
    (hd : d < c.calls.size) :
    ∃ k m₀ f, k < n ∧ Machine.run program limits k m = .running m₀ ∧ m₀.active.calls.size = d ∧
      m₀.Calls program limits f m' seat := by
  induction n generalizing m' seat c with
  | zero =>
    cases hrun
    rw [hempty seat c hc] at hd
    exact absurd hd (Nat.not_lt_zero _)
  | succ n ih =>
    obtain ⟨m₁, hrun₁, hstep⟩ := Machine.run_last hrun
    have hsound := h.run limits n
    rw [hrun₁] at hsound
    have htaken := Machine.Sound.step (m := m₁) hsound limits
    rw [hstep] at htaken
    cases htaken with
    | running hi hmove hsound' =>
      rcases hmove.origin hc with ⟨seat₁, c₁, hc₁, rfl⟩ | ⟨-, -, rfl⟩
      · by_cases hd₁ : d < c₁.calls.size
        · obtain ⟨k, m₀, f, hk, hrun₀, hsize, hcalls⟩ := ih hrun₁ hc₁ hd₁
          exact ⟨k, m₀, f, by omega, hrun₀, hsize, hcalls.step hi hstep hc (hsize ▸ hd)⟩
        · cases hmove.followed hsound hc₁ hc with
          | same heq => exact absurd (heq ▸ hd) hd₁
          | woken _ _ _ _ _ hwake => exact absurd (Nat.lt_of_lt_of_le hd hwake.size_calls) hd₁
          | turned hfront hactive hturn =>
            have he := hturn.effect_of_lt (by omega)
            obtain ⟨hcs, hcase⟩ := hmove.of_call he
            rw [Machine.reseat_of_ne (by rw [he]; nofun) (by rw [he]; nofun), hfront] at hc ⊢
            have hseat := Machine.seat?_front (m := m')
            rw [Machine.front, hcs] at hseat
            cases hc.symm.trans hseat
            subst hactive
            rcases hcase with hcalls | ⟨f, args, -, hval, -, -, hactive'⟩
            · rw [hcalls] at hd
              exact absurd hd hd₁
            · have hsize : m'.active.calls.size = m₁.active.calls.size + 1 := by
                rw [hactive', Context.enter_eq]
                exact Array.size_push _
              have hcall := Instruction.opcode_of_call he
              exact ⟨n, m₁, f, Nat.lt_succ_self n, hrun₁, by omega, m', 0,
                ⟨_, hi, hcall, hval, hstep, by omega⟩, rfl⟩
      · exact absurd hd (Nat.not_lt_zero _)

end YieldMachine
