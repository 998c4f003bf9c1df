import YieldMachine.Proofs.Flow.Machine

/-!
# Seats

Contexts have no names, so one is followed through a run by its seat: the context of the
spine it is or is parked under, and the groups and slots that lead down to it. The
spine is the chain of consumers with the active context at its end. A yield and a resume
move seats; every other instruction leaves them where they are, or empty.

    Move.followed   a step changes only the context that takes it and the one it wakes
-/

namespace YieldMachine

/-! ## Definitions -/

/-- The seat of a context. -/
structure Seat where
  level : Nat
  path : List (Nat × Nat)
  deriving DecidableEq, Repr

/-- The producer that is parked in a slot of a group. -/
def Context.slotAt? (c : Context) (place : Nat × Nat) : Option Context :=
  (c.loops[place.1]?.bind fun group => group[place.2]?).join

/-- The context that a path leads down to. -/
def Context.under? (c : Context) : List (Nat × Nat) → Option Context
  | [] => some c
  | place :: path => (c.slotAt? place).bind fun d => d.under? path

/-- Where the producer is parked that a context waits for. -/
def Context.place (c : Context) : Nat × Nat :=
  (c.loops.size - 1, (c.pending.map Pending.slot).getD 0)

/-- Where the active context is parked when it yields. -/
def Machine.place (m : Machine) : Nat × Nat :=
  (m.consumers.back?.map Context.place).getD (0, 0)

namespace Machine

/-- The consumers, with the active context at the end. -/
def spine (m : Machine) : Array Context :=
  m.consumers.push m.active

/-- The seat of the active context. -/
def front (m : Machine) : Seat :=
  ⟨m.consumers.size, []⟩

/-- The context in a seat. -/
def seat? (m : Machine) (seat : Seat) : Option Context :=
  m.spine[seat.level]?.bind fun c => c.under? seat.path

/-- The seat behind an instruction of the context that is in a seat before it. -/
def reseat (i : Instruction) (m : Machine) (seat : Seat) : Seat :=
  let top := m.consumers.size
  match i.effect with
  | .yield => if seat.level = top then ⟨top - 1, m.place :: seat.path⟩ else seat
  | .resume =>
    if seat.level = top ∧ seat.path.head? = some (m.active.loops.size - 1, i.a.address.toNat) then
      ⟨top + 1, seat.path.tail⟩
    else seat
  | _ => seat

/-- Follow the context in a seat for so many steps, as long as it stays in the machine and
is as `keep` asks. -/
def follow (program : Program) (limits : Limits) (keep : Context → Bool) :
    Nat → Machine → Seat → Option (Machine × Seat)
  | 0, m, seat => some (m, seat)
  | n + 1, m, seat =>
    match program.instruction? m.active.ip, m.step program limits with
    | some i, .running m' =>
      if (m'.seat? (m.reseat i seat)).any keep then
        follow program limits keep n m' (m.reseat i seat)
      else none
    | _, _ => none

end Machine

/-- What an instruction does to the context that executes it. -/
inductive Context.Turn (F : Func → Prop) (i : Instruction) (c : Context) : Context → Prop
  | stay {t : Nat} {vs : Array Value} (local_ : i.effect.IsLocal) (lands : i.Lands c.ip t)
      (size : vs.size = i.gives) : Turn F i c ((c.moved t).swap i.takes vs)
  | enter {f : Func} {id : FrameId} (effect : i.effect = .call) (function : F f) :
      Turn F i c (((c.moved (c.ip + 1)).swap i.b.cells #[]).enter f (c.stack.size - i.takes) id)
  | leave {r : CallRecord} {v : Value} (effect : i.effect = .ret)
      (record : c.calls.back? = some r) :
      Turn F i c (((((c.moved (c.ip + 1)).swap i.takes #[]).leave r).moved r.returnIp).swap 0 #[v])
  | openGroup (effect : i.effect = .openGroup) :
      Turn F i c { c.moved (c.ip + 1) with loops := c.loops.push #[] }
  | spawn {group : Group} (effect : i.effect = .spawn) (innermost : c.loops.back? = some group) :
      Turn F i c ((c.openSlot.moved (Program.jumpTarget c.ip i.a)).waiting
        ⟨group.size, Program.jumpTarget c.ip i.b⟩)
  | yield (effect : i.effect = .yield) :
      Turn F i c ((c.moved (c.ip + 1)).swap i.takes #[]).awake
  | resume {producer : Context} (effect : i.effect = .resume)
      (slot : c.slot? i.a.address.toNat = some (some producer)) :
      Turn F i c (((c.moved (c.ip + 1)).setSlot i.a.address.toNat none).waiting
        ⟨i.a.address.toNat, Program.jumpTarget c.ip i.b⟩)
  | closeGroup {group : Group} (effect : i.effect = .closeGroup)
      (innermost : c.loops.back? = some group) : Turn F i c (c.moved (c.ip + 1)).closeGroup

/-- What an instruction of a producer does to the consumer that it wakes. -/
inductive Context.Wake (i : Instruction) (c : Context) : Context → Prop
  | yield {p : Pending} {producer : Context} {v : Value} (effect : i.effect = .yield)
      (waits : c.pending = some p) :
      Wake i c (((c.setSlot p.slot (some producer)).awake).swap 0 #[v])
  | endIteration {p : Pending} (effect : i.effect = .endIteration) (waits : c.pending = some p) :
      Wake i c (c.moved p.onDrop).awake
  | leave {r : CallRecord} {v : Value} (effect : i.effect = .ret)
      (record : c.calls.back? = some r) :
      Wake i c (((c.awake.leave r).moved r.returnIp).swap 0 #[v])

/-! ## Producers under a context -/

namespace Context

variable {c d : Context} {place : Nat × Nat}

theorem slotAt?_of_loops (h : d.loops = c.loops) : d.slotAt? place = c.slotAt? place := by
  unfold slotAt?
  rw [h]

@[simp] theorem slotAt?_moved (ip : Nat) : (c.moved ip).slotAt? place = c.slotAt? place := rfl

@[simp] theorem slotAt?_swap (n : Nat) (vs : Array Value) :
    (c.swap n vs).slotAt? place = c.slotAt? place := rfl

@[simp] theorem slotAt?_awake : c.awake.slotAt? place = c.slotAt? place := rfl

@[simp] theorem slotAt?_waiting (p : Pending) :
    (c.waiting p).slotAt? place = c.slotAt? place := rfl

theorem slotAt?_eq_some {p : Context} :
    c.slotAt? place = some p ↔
      ∃ group, c.loops[place.1]? = some group ∧ group[place.2]? = some (some p) := by
  simp only [slotAt?, Option.join_eq_some_iff, Option.bind_eq_some_iff]

/-- Where both contexts have a producer, it is the same. -/
def Agree (c d : Context) : Prop :=
  ∀ place p q, c.slotAt? place = some p → d.slotAt? place = some q → p = q

/-- Every producer of the second context is one of the first, in the same place. -/
def Covers (c d : Context) : Prop :=
  ∀ place p, d.slotAt? place = some p → c.slotAt? place = some p

theorem Covers.agree (h : Covers c d) : Agree c d := by
  intro place p q hp hq
  rw [h place q hq] at hp
  exact (Option.some.inj hp).symm

theorem Covers.of_loops (h : d.loops = c.loops) : Covers c d := by
  intro place p hp
  rwa [slotAt?_of_loops h] at hp

/-- The producers of a context whose groups are those of another, or of fewer of them. -/
theorem Covers.of_subset
    (h : ∀ (g : Nat) (group : Group), d.loops[g]? = some group → c.loops[g]? = some group) :
    Covers c d := by
  intro place p hp
  obtain ⟨group, hg, hslot⟩ := slotAt?_eq_some.1 hp
  exact slotAt?_eq_some.2 ⟨group, h _ _ hg, hslot⟩

theorem Covers.openGroup {ip : Nat} : Covers c { c.moved ip with loops := c.loops.push #[] } := by
  intro place p hp
  obtain ⟨group, hg, hslot⟩ := slotAt?_eq_some.1 hp
  simp only [Array.getElem?_push] at hg
  split at hg
  · cases hg
    simp at hslot
  · exact slotAt?_eq_some.2 ⟨group, hg, hslot⟩

theorem getElem?_modify_loops {f : Group → Group} {g : Nat} {group : Group}
    (h : (c.loops.modify (c.loops.size - 1) f)[g]? = some group) :
    ∃ old, c.loops[g]? = some old ∧ group = if g = c.loops.size - 1 then f old else old := by
  rw [Array.getElem?_modify] at h
  split at h
  · next hg =>
    obtain ⟨old, hold, rfl⟩ := Option.map_eq_some_iff.1 h
    exact ⟨old, hold, by rw [if_pos hg.symm]⟩
  · next hg =>
    exact ⟨group, h, by rw [if_neg fun he => hg he.symm]⟩

theorem Covers.openSlot : Covers c c.openSlot := by
  intro place p hp
  rw [openSlot_eq] at hp
  obtain ⟨group, hg, hslot⟩ := slotAt?_eq_some.1 hp
  obtain ⟨old, hold, rfl⟩ := getElem?_modify_loops hg
  refine slotAt?_eq_some.2 ⟨old, hold, ?_⟩
  split at hslot
  · rw [Array.getElem?_push] at hslot
    split at hslot
    · cases hslot
    · exact hslot
  · exact hslot

theorem slotAt?_setSlot {slot : Nat} {content : Option Context} {p : Context}
    (h : (c.setSlot slot content).slotAt? place = some p) :
    place = (c.loops.size - 1, slot) ∧ content = some p ∨
      place ≠ (c.loops.size - 1, slot) ∧ c.slotAt? place = some p := by
  rw [setSlot_eq] at h
  obtain ⟨group, hg, hslot⟩ := slotAt?_eq_some.1 h
  obtain ⟨old, hold, rfl⟩ := getElem?_modify_loops hg
  split at hslot
  · next hlast =>
    rw [Array.getElem?_setIfInBounds] at hslot
    split at hslot
    · next hs =>
      split at hslot
      · cases hslot
        exact .inl ⟨Prod.ext hlast hs.symm, rfl⟩
      · cases hslot
    · next hs =>
      refine .inr ⟨fun he => hs ?_, slotAt?_eq_some.2 ⟨old, hold, hslot⟩⟩
      rw [he]
  · next hlast =>
    refine .inr ⟨fun he => hlast ?_, slotAt?_eq_some.2 ⟨old, hold, hslot⟩⟩
    rw [he]

theorem Covers.take {slot : Nat} : Covers c (c.setSlot slot none) := by
  intro place p hp
  rcases slotAt?_setSlot hp with ⟨-, h⟩ | ⟨-, hp⟩
  · cases h
  · exact hp

theorem Covers.shrink {ip n : Nat} {stack : Array Value} {frames : Chain}
    {calls : Array CallRecord} {pending : Option Pending} :
    Covers c ⟨ip, stack, frames, calls, c.loops.shrink n, pending⟩ := by
  refine Covers.of_subset fun g group hg => ?_
  rw [← Array.getElem?_toList, Array.toList_shrink, List.getElem?_take] at hg
  split at hg
  · rwa [Array.getElem?_toList] at hg
  · cases hg

theorem Covers.closeGroup : Covers c c.closeGroup := by
  rw [closeGroup_eq]
  refine Covers.of_subset fun g group hg => ?_
  dsimp only at hg
  rw [Array.getElem?_pop] at hg
  split at hg
  · exact hg
  · cases hg

theorem Covers.leave (r : CallRecord) : Covers c (c.leave r) := by
  rw [leave_eq]
  exact Covers.shrink

/-- Only the context itself may differ on the way down from contexts that agree. -/
theorem Agree.under {path : List (Nat × Nat)} {p q : Context} (h : Agree c d)
    (hp : c.under? path = some p) (hq : d.under? path = some q) :
    q = p ∨ path = [] ∧ p = c ∧ q = d := by
  cases path with
  | nil => exact .inr ⟨rfl, (Option.some.inj hp).symm, (Option.some.inj hq).symm⟩
  | cons place path =>
    obtain ⟨p', hp', hp⟩ := Option.bind_eq_some_iff.1 hp
    obtain ⟨q', hq', hq⟩ := Option.bind_eq_some_iff.1 hq
    cases h place p' q' hp' hq'
    rw [hp] at hq
    exact .inl (Option.some.inj hq).symm

end Context

/-! ## The spine -/

namespace Machine

variable {m : Machine} {k : Nat} {seat : Seat} {c : Context}

theorem spine_of_lt (h : k < m.consumers.size) : m.spine[k]? = m.consumers[k]? := by
  rw [spine, Array.getElem?_push, if_neg (by omega)]

theorem spine_top : m.spine[m.consumers.size]? = some m.active := by
  rw [spine, Array.getElem?_push, if_pos rfl]

theorem le_of_spine (h : m.spine[k]? = some c) : k ≤ m.consumers.size := by
  obtain ⟨hlt, -⟩ := Array.getElem?_eq_some_iff.1 h
  rw [spine, Array.size_push] at hlt
  omega

theorem seat?_eq_some :
    m.seat? seat = some c ↔ ∃ d, m.spine[seat.level]? = some d ∧ d.under? seat.path = some c :=
  Option.bind_eq_some_iff

theorem seat?_front : m.seat? m.front = some m.active := by
  rw [seat?_eq_some]
  exact ⟨m.active, spine_top, rfl⟩

end Machine

/-! ## Following a context -/

section

variable {program : Program} {F : Func → Prop} {i : Instruction} {m m' : Machine} {seat : Seat}
  {c c' : Context}

/-- What became of a context that was followed for one step. -/
inductive Followed (F : Func → Prop) (i : Instruction) (m m' : Machine) (seat : Seat)
    (c c' : Context) : Prop
  | same (eq : c' = c)
  | turned (front : seat = m.front) (active : c = m.active) (turn : c.Turn F i c')
  | woken (path : seat.path = []) (behind : seat.level < m.consumers.size)
      (consumer : m.consumers[seat.level]? = some c) (level : seat.level = m'.consumers.size)
      (active : c' = m'.active) (wake : c.Wake i c')

/-- The active context takes a turn, and the consumers stay as they are. -/
theorem Followed.of_active (hcs : m'.consumers = m.consumers)
    (hagree : Context.Agree m.active m'.active) (hturn : m.active.Turn F i m'.active)
    (hc : m.seat? seat = some c) (hc' : m'.seat? seat = some c') :
    Followed F i m m' seat c c' := by
  obtain ⟨d, hd, hunder⟩ := Machine.seat?_eq_some.1 hc
  obtain ⟨d', hd', hunder'⟩ := Machine.seat?_eq_some.1 hc'
  rcases Nat.lt_or_eq_of_le (Machine.le_of_spine hd) with hlt | heq
  · rw [Machine.spine_of_lt hlt] at hd
    rw [Machine.spine_of_lt (hcs ▸ hlt), hcs, hd] at hd'
    cases hd'
    rw [hunder] at hunder'
    exact .same (Option.some.inj hunder').symm
  · rw [heq, Machine.spine_top] at hd
    rw [heq, ← hcs, Machine.spine_top] at hd'
    cases hd
    cases hd'
    rcases hagree.under hunder hunder' with h | ⟨hpath, rfl, rfl⟩
    · exact .same h
    · exact .turned (by cases seat; cases heq; cases hpath; rfl) rfl hturn

/-- The active context takes a turn and waits behind another. -/
theorem Followed.of_pushed {d : Context} (hcs : m'.consumers = m.consumers.push d)
    (hagree : Context.Agree m.active d) (hturn : m.active.Turn F i d)
    (hc : m.seat? seat = some c) (hc' : m'.seat? seat = some c') :
    Followed F i m m' seat c c' := by
  obtain ⟨e, he, hunder⟩ := Machine.seat?_eq_some.1 hc
  obtain ⟨e', he', hunder'⟩ := Machine.seat?_eq_some.1 hc'
  have hle := Machine.le_of_spine he
  rw [Machine.spine_of_lt (by rw [hcs, Array.size_push]; omega), hcs, Array.getElem?_push] at he'
  split at he'
  · next heq =>
    rw [heq, Machine.spine_top] at he
    cases he
    cases he'
    rcases hagree.under hunder hunder' with h | ⟨hpath, rfl, rfl⟩
    · exact .same h
    · exact .turned (by cases seat; cases heq; cases hpath; rfl) rfl hturn
  · next hne =>
    rw [Machine.spine_of_lt (by omega), he'] at he
    cases he
    rw [hunder] at hunder'
    exact .same (Option.some.inj hunder').symm

/-- A consumer wakes, and what stood before it is gone. -/
theorem Followed.of_woken {d : Context} (hk : m.consumers[m'.consumers.size]? = some d)
    (hcs : ∀ j, j < m'.consumers.size → m'.consumers[j]? = m.consumers[j]?)
    (hagree : Context.Agree d m'.active) (hwake : d.Wake i m'.active)
    (hc : m.seat? seat = some c) (hc' : m'.seat? seat = some c') :
    Followed F i m m' seat c c' := by
  obtain ⟨hlt, -⟩ := Array.getElem?_eq_some_iff.1 hk
  obtain ⟨e, he, hunder⟩ := Machine.seat?_eq_some.1 hc
  obtain ⟨e', he', hunder'⟩ := Machine.seat?_eq_some.1 hc'
  have hle := Machine.le_of_spine he'
  rw [Machine.spine_of_lt (by omega)] at he
  rcases Nat.lt_or_eq_of_le hle with hl | heq
  · rw [Machine.spine_of_lt hl, hcs _ hl, he] at he'
    cases he'
    rw [hunder] at hunder'
    exact .same (Option.some.inj hunder').symm
  · rw [heq, Machine.spine_top] at he'
    rw [heq, hk] at he
    cases he
    cases he'
    rcases hagree.under hunder hunder' with h | ⟨hpath, rfl, rfl⟩
    · exact .same h
    · exact .woken hpath (by omega) (heq ▸ hk) heq rfl hwake

theorem Machine.reseat_of_ne (hy : i.effect ≠ .yield) (hr : i.effect ≠ .resume) :
    m.reseat i seat = seat := by
  unfold Machine.reseat
  dsimp only
  split
  · next he => exact absurd he hy
  · next he => exact absurd he hr
  · rfl

theorem Machine.reseat_yield (he : i.effect = .yield) : m.reseat i seat =
      if seat.level = m.consumers.size then ⟨m.consumers.size - 1, m.place :: seat.path⟩
      else seat := by
  rw [Machine.reseat, he]

theorem Machine.reseat_resume (he : i.effect = .resume) : m.reseat i seat =
      if seat.level = m.consumers.size ∧
        seat.path.head? = some (m.active.loops.size - 1, i.a.address.toNat) then
        ⟨m.consumers.size + 1, seat.path.tail⟩ else seat := by
  rw [Machine.reseat, he]

/-- The seat of a context that waits stays where it is. -/
theorem Machine.reseat_of_lt (h : seat.level < m.consumers.size) : m.reseat i seat = seat := by
  by_cases hy : i.effect = .yield
  · rw [reseat_yield hy, if_neg (Nat.ne_of_lt h)]
  · by_cases hr : i.effect = .resume
    · rw [reseat_resume hr, if_neg fun hand => Nat.ne_of_lt h hand.1]
    · exact reseat_of_ne hy hr

/-- The active context keeps its seat unless it yields. -/
theorem Machine.reseat_front (hy : i.effect ≠ .yield) : m.reseat i m.front = m.front := by
  by_cases hr : i.effect = .resume
  · rw [reseat_resume hr, if_neg (by simp [front])]
  · exact reseat_of_ne hy hr

theorem Context.slotAt?_of_slot? {slot : Nat} {p : Context} (h : c.slot? slot = some (some p)) :
    c.slotAt? (c.loops.size - 1, slot) = some p := by
  obtain ⟨group, hg, hslot⟩ := Option.bind_eq_some_iff.1 h
  rw [Array.back?_eq_getElem?] at hg
  exact Context.slotAt?_eq_some.2 ⟨group, hg, hslot⟩

theorem Context.slotAt?_setSlot_self {slot : Nat} {p : Context} {content : Option Context}
    (h : c.slot? slot = some content) :
    (c.setSlot slot (some p)).slotAt? (c.loops.size - 1, slot) = some p := by
  obtain ⟨group, hg, hslot⟩ := Option.bind_eq_some_iff.1 h
  obtain ⟨hlt, -⟩ := Array.getElem?_eq_some_iff.1 hslot
  rw [Array.back?_eq_getElem?] at hg
  rw [Context.setSlot_eq]
  refine Context.slotAt?_eq_some.2 ⟨group.setIfInBounds slot (some p), ?_, ?_⟩
  · rw [Array.getElem?_modify, if_pos rfl, hg]
    rfl
  · rw [Array.getElem?_setIfInBounds_self, if_pos hlt]

/-- A producer that was parked is followed into its slot, and its consumer wakes. -/
theorem Move.followed_yield {consumer : Context} {p : Pending} {v : Value}
    (hs : consumer.slot? p.slot = some none) (he : i.effect = .yield)
    (hb : m.consumers.back? = some consumer) (hp : consumer.pending = some p)
    (hcs : m'.consumers = m.consumers.pop)
    (ha : m'.active = ((consumer.setSlot p.slot
      (some ((m.active.moved (m.active.ip + 1)).swap i.takes #[]).awake)).awake).swap 0 #[v])
    (hc : m.seat? seat = some c) (hc' : m'.seat? (m.reseat i seat) = some c') :
    Followed F i m m' seat c c' := by
  have hpos : 0 < m.consumers.size := by
    obtain ⟨hlt, -⟩ := Array.getElem?_eq_some_iff.1 (Array.back?_eq_getElem? ▸ hb)
    omega
  have hsize : m'.consumers.size = m.consumers.size - 1 := by rw [hcs, Array.size_pop]
  have hplace : m.place = (consumer.loops.size - 1, p.slot) := by
    rw [Machine.place, hb, Option.map_some, Option.getD_some, Context.place, hp]
    rfl
  rw [Machine.reseat_yield he] at hc'
  split at hc'
  · next htop =>
    obtain ⟨d, hd, hunder⟩ := Machine.seat?_eq_some.1 hc
    obtain ⟨d', hd', hunder'⟩ := Machine.seat?_eq_some.1 hc'
    rw [htop, Machine.spine_top] at hd
    rw [show (⟨m.consumers.size - 1, m.place :: seat.path⟩ : Seat).level =
      m'.consumers.size from hsize.symm, Machine.spine_top, ha] at hd'
    cases hd
    cases hd'
    obtain ⟨q, hq, hunder'⟩ := Option.bind_eq_some_iff.1 hunder'
    rw [hplace, Context.slotAt?_swap, Context.slotAt?_awake, Context.slotAt?_setSlot_self hs] at hq
    cases hq
    have hagree : Context.Agree m.active
        ((m.active.moved (m.active.ip + 1)).swap i.takes #[]).awake :=
      (Context.Covers.of_loops rfl).agree
    rcases hagree.under hunder hunder' with h | ⟨hpath, rfl, rfl⟩
    · exact .same h
    · exact .turned (by cases seat; cases htop; cases hpath; rfl) rfl (.yield he)
  · refine Followed.of_woken (d := consumer) ?_ ?_ ?_ ?_ hc hc'
    · rw [hsize, ← Array.back?_eq_getElem?, hb]
    · intro j hj
      rw [hcs, Array.getElem?_pop, if_pos (by omega)]
    · intro place q q' hq hq'
      rw [ha, Context.slotAt?_swap, Context.slotAt?_awake] at hq'
      rcases Context.slotAt?_setSlot hq' with ⟨rfl, -⟩ | ⟨-, hq'⟩
      · -- the slot of the producer that runs is empty
        obtain ⟨group, hg, hslot⟩ := Context.slotAt?_eq_some.1 hq
        obtain ⟨group', hg', hslot'⟩ := Option.bind_eq_some_iff.1 hs
        rw [Array.back?_eq_getElem?, hg] at hg'
        cases hg'
        rw [hslot] at hslot'
        cases hslot'
      · rw [hq] at hq'
        exact Option.some.inj hq'
    · rw [ha]
      exact .yield he hp

/-- A producer that goes on is followed to the front, and its consumer waits. -/
theorem Move.followed_resume {producer : Context} (he : i.effect = .resume)
    (hslot : m.active.slot? i.a.address.toNat = some (some producer))
    (hp : producer.pending = none)
    (hcs : m'.consumers = m.consumers.push (((m.active.moved (m.active.ip + 1)).setSlot
      i.a.address.toNat none).waiting ⟨i.a.address.toNat, Program.jumpTarget m.active.ip i.b⟩))
    (ha : m'.active = producer.awake)
    (hc : m.seat? seat = some c) (hc' : m'.seat? (m.reseat i seat) = some c') :
    Followed F i m m' seat c c' := by
  rw [Machine.reseat_resume he] at hc'
  split at hc'
  · next htop =>
    obtain ⟨htop, hhead⟩ := htop
    obtain ⟨d, hd, hunder⟩ := Machine.seat?_eq_some.1 hc
    obtain ⟨d', hd', hunder'⟩ := Machine.seat?_eq_some.1 hc'
    rw [htop, Machine.spine_top] at hd
    have hsize : m'.consumers.size = m.consumers.size + 1 := by rw [hcs, Array.size_push]
    rw [show (⟨m.consumers.size + 1, seat.path.tail⟩ : Seat).level =
      m'.consumers.size from hsize.symm, Machine.spine_top, ha] at hd'
    have hawake : producer.awake = producer := by
      cases producer
      cases hp
      rfl
    rw [hawake] at hd'
    cases hd
    cases hd'
    obtain ⟨path, hpath⟩ := List.head?_eq_some_iff.1 hhead
    rw [hpath, Context.under?, Context.slotAt?_of_slot? hslot] at hunder
    rw [hpath] at hunder'
    rw [show (some producer).bind (fun d => d.under? path) = producer.under? path from rfl] at hunder
    rw [show producer.under? path = some c' from hunder'] at hunder
    exact .same (Option.some.inj hunder)
  · refine Followed.of_pushed hcs (Context.Covers.agree fun place q hq => ?_)
      (.resume he hslot) hc hc'
    rw [Context.slotAt?_waiting] at hq
    exact Context.Covers.take (c := m.active.moved (m.active.ip + 1)) place q hq

/-- A step changes only the context that takes it and the one it wakes. -/
theorem Move.followed (hm : Move program F i m m') (hs : m.Sound program)
    (hc : m.seat? seat = some c) (hc' : m'.seat? (m.reseat i seat) = some c') :
    Followed F i m m' seat c c' := by
  have hstays : ∀ e : Effect, i.effect = e → e ≠ .yield → e ≠ .resume →
      m'.seat? seat = some c' := by
    intro e he hy hr
    rwa [Machine.reseat_of_ne (he ▸ hy) (he ▸ hr)] at hc'
  cases hm with
  | stay hl ht hk hv =>
    have hseat := hstays _ rfl (by rintro h; rw [h] at hl; exact hl)
      (by rintro h; rw [h] at hl; exact hl)
    exact .of_active rfl (Context.Covers.of_loops rfl).agree (.stay hl ht hk) hc hseat
  | enter he hf =>
    refine .of_active rfl (Context.Covers.of_loops ?_).agree (.enter he hf) hc
      (hstays _ he nofun nofun)
    rw [Context.enter_eq]
    rfl
  | @ret c₀ c₁ cs cs' gone r v g hp co j j' he hval hv hl hr =>
    have hseat := hstays _ he nofun nofun
    obtain ⟨-, ⟨rfl, rfl⟩ | ⟨-, k, consumer, hk, rfl, hcs, -⟩⟩ := Action.leaveProducers_eq_some hl
    · refine .of_active rfl (Context.Covers.agree ?_) (.leave he hr) hc hseat
      exact Context.Covers.leave r
    · obtain ⟨hlt, -⟩ := Array.getElem?_eq_some_iff.1 hk
      have hsize : cs'.size = k := by
        rw [← Array.length_toList, hcs, List.length_take, Array.length_toList]
        omega
      refine .of_woken (d := consumer) (hsize ▸ hk) (fun n hn => ?_) ?_ (.leave he hr) hc hseat
      · rw [← Array.getElem?_toList, hcs, List.getElem?_take,
          if_pos (hsize ▸ hn), Array.getElem?_toList]
      · exact Context.Covers.agree (Context.Covers.leave r)
  | openGroup he =>
    exact .of_active rfl Context.Covers.openGroup.agree (.openGroup he) hc
      (hstays _ he nofun nofun)
  | spawn he hg =>
    refine .of_pushed rfl ?_ (.spawn he hg) hc (hstays _ he nofun nofun)
    exact Context.Covers.openSlot.agree
  | @yield c₀ consumer cs p s v g hp co j j' he hval hv hb hwaits hslot =>
    obtain ⟨p', hp', hempty⟩ := (hs.innermost hb).1.pending
    rw [hwaits] at hp'
    cases hp'
    exact Move.followed_yield hempty he hb hwaits rfl rfl hc hc'
  | @resume c₀ producer cs g hp co j j' he hslot =>
    obtain ⟨group, hg, hget⟩ := Option.bind_eq_some_iff.1 hslot
    have hparked : Parked program producer :=
      hs.keeps.parked group (by rw [mem_inward]; exact Array.mem_of_back? hg) producer
        (Array.mem_of_getElem? hget)
    exact Move.followed_resume he hslot hparked.poised.1.pending rfl rfl hc hc'
  | @endIteration c₀ consumer cs p g hp co j j' he hb hwaits =>
    refine .of_woken (d := consumer) ?_ (fun n hn => ?_) (Context.Covers.of_loops rfl).agree
      (.endIteration he hwaits) hc (hstays _ he nofun nofun)
    · rw [Array.size_pop, ← Array.back?_eq_getElem?, hb]
    · rw [Array.size_pop] at hn
      rw [Array.getElem?_pop, if_pos hn]
  | closeGroup he hg =>
    refine .of_active rfl (Context.Covers.agree ?_) (.closeGroup he hg) hc
      (hstays _ he nofun nofun)
    exact Context.Covers.closeGroup

/-! ## Following for many steps -/

namespace Machine

variable {limits : Limits} {keep keep' : Context → Bool} {n : Nat}

theorem follow_succ {seat' : Seat}
    (h : follow program limits keep (n + 1) m seat = some (m', seat')) :
    ∃ i m₁ c, program.instruction? m.active.ip = some i ∧ m.step program limits = .running m₁ ∧
      m₁.seat? (m.reseat i seat) = some c ∧ keep c = true ∧
      follow program limits keep n m₁ (m.reseat i seat) = some (m', seat') := by
  unfold follow at h
  split at h
  · next i m₁ hi hstep =>
    split at h
    · next hany =>
      obtain ⟨c, hc, hkeep⟩ := (Option.any_eq_true _ _).1 hany
      exact ⟨i, m₁, c, hi, hstep, hc, hkeep, h⟩
    · cases h
  · cases h

theorem follow_add (k : Nat) :
    follow program limits keep (k + n) m seat =
      (follow program limits keep k m seat).bind fun (m', seat') =>
        follow program limits keep n m' seat' := by
  induction k generalizing m seat with
  | zero => rw [Nat.zero_add]; rfl
  | succ k ih =>
    rw [Nat.add_right_comm, follow, follow]
    split
    · split
      · exact ih
      · rfl
    · rfl

/-- A context that is followed ends up in the machine that the run leads to. -/
theorem follow_of_run {seat' : Seat} (hrun : Machine.run program limits n m = .running m')
    (hf : (follow program limits keep n m seat).map Prod.snd = some seat') :
    follow program limits keep n m seat = some (m', seat') := by
  induction n generalizing m seat with
  | zero =>
    cases hrun
    cases hf
    rfl
  | succ n ih =>
    rw [Machine.run_succ] at hrun
    unfold follow at hf ⊢
    split at hf
    · next i m₁ hi hstep =>
      rw [hstep] at hrun
      dsimp only at hrun
      split at hf
      · next hkeep =>
        rw [if_pos hkeep]
        exact ih hrun hf
      · cases hf
    · cases hf

/-- What every step keeps holds after all of them. -/
theorem follow_invariant {I : Machine → Seat → Prop}
    (hI : ∀ {m seat i m' c}, I m seat → program.instruction? m.active.ip = some i →
      m.step program limits = .running m' → m'.seat? (m.reseat i seat) = some c →
      keep c = true → I m' (m.reseat i seat))
    {seat' : Seat} (h : I m seat)
    (hf : follow program limits keep n m seat = some (m', seat')) : I m' seat' := by
  induction n generalizing m seat with
  | zero =>
    cases hf
    exact h
  | succ n ih =>
    obtain ⟨i, m₁, c, hi, hstep, hc, hkeep, hf⟩ := follow_succ hf
    exact ih (hI h hi hstep hc hkeep) hf

/-- What every step keeps of two contexts that are followed at once. -/
theorem follow_invariant₂ {I : Machine → Seat → Seat → Prop}
    (hI : ∀ {m seat other i m' c d}, I m seat other → program.instruction? m.active.ip = some i →
      m.step program limits = .running m' → m'.seat? (m.reseat i seat) = some c → keep c = true →
      m'.seat? (m.reseat i other) = some d → I m' (m.reseat i seat) (m.reseat i other))
    {other seat' other' : Seat} {m₂ : Machine} (h : I m seat other)
    (hf : follow program limits keep n m seat = some (m', seat'))
    (hg : follow program limits keep' n m other = some (m₂, other')) : I m' seat' other' := by
  induction n generalizing m seat other with
  | zero =>
    cases hf
    cases hg
    exact h
  | succ n ih =>
    obtain ⟨i, m₁, c, hi, hstep, hc, hkeep, hf⟩ := follow_succ hf
    obtain ⟨i', m₁', d, hi', hstep', hd, -, hg⟩ := follow_succ hg
    rw [hi] at hi'
    rw [hstep] at hstep'
    cases hi'
    cases hstep'
    exact ih (hI h hi hstep hc hkeep hd) hf hg

end Machine

end

end YieldMachine
