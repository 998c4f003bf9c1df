import YieldMachine.Proofs.Flow.Session
import YieldMachine.Proofs.Machine.Inversion
import YieldMachine.Proofs.Run.Seat

/-!
# Balanced statements

The context at the bottom of the spine runs the statement itself. Its first call, if it
makes one, stands on no frames. So when the code of the statement comes to its end there
is no call, no loop and no frame left, and the stack holds the value of the statement
alone.

    Reached.balanced   a statement that comes to its end leaves its value and nothing else
-/

namespace YieldMachine

/-! ## Grounded contexts -/

/-- Under its calls a context has no frame. -/
def Context.Grounded (c : Context) : Prop :=
  (c.calls[0]?.elim c.frames.size CallRecord.frameDepth) = 0

section

variable {c d : Context} {F : Func → Prop} {i : Instruction}

theorem Context.Grounded.of_eq (h : c.Grounded) (hc : d.calls = c.calls)
    (hf : d.frames = c.frames) : d.Grounded := by
  unfold Context.Grounded
  rwa [hc, hf]

theorem Context.Grounded.moved (h : c.Grounded) (ip : Nat) : (c.moved ip).Grounded :=
  h.of_eq rfl rfl

theorem Context.Grounded.swap (h : c.Grounded) (n : Nat) (vs : Array Value) :
    (c.swap n vs).Grounded :=
  h.of_eq rfl rfl

theorem Context.Grounded.awake (h : c.Grounded) : c.awake.Grounded :=
  h.of_eq rfl rfl

theorem Context.Grounded.enter (h : c.Grounded) (f : Func) (b : Nat) (id : FrameId) :
    (c.enter f b id).Grounded := by
  rw [Context.enter_eq]
  unfold Context.Grounded at h ⊢
  rw [Array.getElem?_push]
  split
  · next hsize =>
    rw [Array.getElem?_eq_none (by omega)] at h
    exact h
  · next hsize =>
    rw [Array.getElem?_eq_getElem (by omega)] at h ⊢
    exact h

theorem Context.Grounded.leave {r : CallRecord} (h : c.Grounded)
    (hr : c.calls.back? = some r) : (c.leave r).Grounded := by
  rw [Array.back?_eq_getElem?] at hr
  obtain ⟨hlt, -⟩ := Array.getElem?_eq_some_iff.1 hr
  rw [Context.leave_eq]
  unfold Context.Grounded at h ⊢
  dsimp only
  rw [Array.getElem?_pop]
  split
  · rw [Array.getElem?_eq_getElem (by omega)] at h ⊢
    exact h
  · next hone =>
    rw [show c.calls.size - 1 = 0 by omega] at hr
    rw [hr] at h
    rw [Option.elim_none, Array.size_shrink, show r.frameDepth = 0 from h]
    exact Nat.zero_min _

theorem Context.Grounded.turn (h : c.Grounded) (ht : c.Turn F i d) : d.Grounded := by
  cases ht with
  | stay | openGroup | yield => exact h.of_eq rfl rfl
  | enter => exact ((h.moved _).swap _ _).enter _ _ _
  | leave he hr => exact ((((h.moved _).swap _ _).leave hr).moved _).swap _ _
  | spawn => exact h.of_eq c.calls_openSlot c.frames_openSlot
  | resume => exact h.of_eq (Context.calls_setSlot _ _ _) (Context.frames_setSlot _ _ _)
  | closeGroup => exact h.of_eq (Context.calls_closeGroup _) (Context.frames_closeGroup _)

theorem Context.Grounded.wake (h : c.Grounded) (hw : c.Wake i d) : d.Grounded := by
  cases hw with
  | yield => exact h.of_eq (c.calls_setSlot _ _) (c.frames_setSlot _ _)
  | endIteration => exact h.of_eq rfl rfl
  | leave he hr => exact ((h.awake.leave hr).moved _).swap _ _

end

/-! ## The bottom of the spine -/

variable {program : Program} {limits : Limits} {m m' : Machine} {n : Nat}

/-- The seat of the context that runs the statement. -/
def Seat.bottom : Seat :=
  ⟨0, []⟩

/-- The context that runs the statement has no frame under its calls. -/
def Machine.Grounded (m : Machine) : Prop :=
  ∀ c, m.seat? .bottom = some c → c.Grounded

theorem Machine.seat?_bottom (m : Machine) : ∃ c, m.seat? .bottom = some c := by
  have hlt : 0 < m.spine.size := by
    rw [Machine.spine, Array.size_push]
    omega
  exact ⟨m.spine[0], Machine.seat?_eq_some.2 ⟨_, Array.getElem?_eq_getElem hlt, rfl⟩⟩

/-- The context that runs the statement is never parked. -/
theorem Move.reseat_bottom {F : Func → Prop} {i : Instruction} (hm : Move program F i m m') :
    m.reseat i .bottom = .bottom := by
  by_cases hy : i.effect = .yield
  · have hpos : m.consumers.size ≠ 0 := by
      cases hm with
      | yield he hval hv hb =>
        obtain ⟨hlt, -⟩ := Array.getElem?_eq_some_iff.1 (Array.back?_eq_getElem? ▸ hb)
        dsimp only
        omega
      | stay hl => rw [hy] at hl; exact hl.elim
      | enter he | ret he | openGroup he | spawn he | resume he | endIteration he
      | closeGroup he => rw [hy] at he; cases he
    rw [Machine.reseat_yield hy, if_neg fun h => hpos h.symm]
  · by_cases hr : i.effect = .resume
    · rw [Machine.reseat_resume hr, if_neg fun h => by cases h.2]
    · exact Machine.reseat_of_ne hy hr

/-- A statement starts without a frame. -/
theorem Machine.Grounded.start {ip : Nat} (ha : m.active = .start ip #[])
    (hcs : m.consumers = #[]) : m.Grounded := by
  intro c hc
  obtain ⟨d, hd, hunder⟩ := Machine.seat?_eq_some.1 hc
  rw [Machine.spine, hcs, ha] at hd
  cases hd
  cases hunder
  rfl

theorem Machine.Grounded.move {i : Instruction} (h : m.Grounded) (hs : m.Sound program)
    (hm : Move program program.Trusts i m m') : m'.Grounded := by
  intro c' hc'
  obtain ⟨c, hc⟩ := m.seat?_bottom
  have hground := h c hc
  rw [← hm.reseat_bottom] at hc'
  cases hm.followed hs hc hc' with
  | same heq => exact heq ▸ hground
  | turned _ _ hturn => exact hground.turn hturn
  | woken _ _ _ _ _ hwake => exact hground.wake hwake

theorem Machine.Grounded.run (h : m.Grounded) (hs : m.Sound program)
    (hrun : Machine.run program limits n m = .running m') : m'.Grounded := by
  induction n generalizing m with
  | zero =>
    cases hrun
    exact h
  | succ n ih =>
    rw [Machine.run_succ] at hrun
    have hsound := hs.step limits
    cases hstep : m.step program limits with
    | running m₁ =>
      rw [hstep] at hrun hsound
      cases hsound with
      | running hi hm hs₁ => exact ih (h.move hs hm) hs₁ hrun
    | finished v m₁ | exited status m₁ | faulted fault m₁ =>
      rw [hstep] at hrun
      cases hrun

/-! ## The end of a statement -/

/-- A sound machine that finishes has one value in its bottom context, and nothing else. -/
theorem Machine.Sound.finished {v : Value} (h : m.Sound program)
    (hstep : m.step program limits = .finished v m') :
    m' = m ∧ m.consumers = #[] ∧ m.active.calls = #[] ∧ m.active.loops = #[] ∧
      m.active.stack = #[v] := by
  have htaken := m.step_taken program limits
  rw [hstep] at htaken
  cases htaken with
  | finished hi hcs =>
    obtain ⟨ls, hst, hfills⟩ := h.active.stacked
    obtain ⟨s, -, -, hq, hhome, -⟩ := hst.top
    rcases Safe.cases hq with ⟨-, rfl⟩ | ⟨i, hj, -⟩
    · -- a shape of the statement itself is that of a context without calls
      have hcalls : m.active.calls = #[] := by
        split at hhome
        · next hempty => simpa [inward] using hempty
        · cases hhome
      rw [hcalls, hcs] at hst
      obtain ⟨-, hshape⟩ | ⟨i, hj, -⟩ := Safe.cases hst
      · obtain ⟨-, hheight, rfl⟩ : _ ∧ m.active.stack.size = 1 ∧ ls = [] := by
          simpa [Shape.up, Shape.statement] using hshape
        have hloops : m.active.loops.size = 0 := by
          rw [← length_inward, ← hfills.length_eq]
          rfl
        obtain ⟨w, hw⟩ := Array.size_eq_one_iff.1 hheight
        exact ⟨rfl, hcs, hcalls, Array.eq_empty_of_size_eq_zero hloops, by rw [hw]; rfl⟩
      · rw [hi] at hj
        cases hj
    · rw [hi] at hj
      cases hj

/-- A statement that comes to the end of its code leaves its value on the stack and nothing
else: no consumer, no call, no loop and no frame. -/
theorem Session.Reached.balanced {s : Session} {node : Node} {start : Machine} {v : Value}
    (hs : s.Reached) (hst : s.start? node = some (program, start))
    (hrun : Machine.run program s.limits n start = .finished v m) :
    m.consumers = #[] ∧ m.active.calls = #[] ∧ m.active.loops = #[] ∧ m.active.frames = #[] ∧
      m.active.stack = #[v] ∧ s.eval n node = some (.ok v, ⟨program, s.limits, m, none⟩) := by
  obtain ⟨hsound, hactive, hconsumers⟩ := hs.steady.start hst
  obtain ⟨k, m₁, -, hrun₁, hstep⟩ := Machine.run_isEnd hrun rfl
  have hground₁ := (Machine.Grounded.start hactive hconsumers).run hsound hrun₁
  obtain ⟨rfl, hcs, hcalls, hloops, hstack⟩ := (hs.visits ⟨start, k, hst, hrun₁⟩).finished hstep
  have hframes : m.active.Grounded := by
    refine hground₁ m.active ?_
    have hfront := m.seat?_front
    rwa [Machine.front, hcs] at hfront
  rw [Context.Grounded, hcalls] at hframes
  refine ⟨hcs, hcalls, hloops, Array.eq_empty_of_size_eq_zero hframes, hstack, ?_⟩
  rw [Session.eval_of_start hst, hrun]
  rfl

/-- A call of a function whose loop takes a round: its producer yields, and is dropped when it
is continued. -/
def Node.oneRound : Node :=
  .call (.function 0 1 (.forEach [.own 0] [.yield (.array [])] (.ref (.own 0)))) []

/-- The program and the machine that it starts with in a fresh session. -/
def Session.oneRound : Program × Machine :=
  ((Session.fresh {} default default).start? .oneRound).get!

/-- After its sixteen steps the call, the loop and the producer have left nothing behind. -/
theorem Session.balanced_oneRound :
    ∃ v m, (Session.fresh {} default default).Reached ∧
      (Session.fresh {} default default).start? .oneRound =
        some (Session.oneRound.1, Session.oneRound.2) ∧
      Machine.run Session.oneRound.1 {} 16 Session.oneRound.2 = .finished v m ∧
      m.consumers = #[] ∧ m.active.calls = #[] ∧ m.active.loops = #[] ∧ m.active.frames = #[] ∧
      m.active.stack = #[v] ∧
      (Session.fresh {} default default).eval 16 .oneRound =
        some (.ok v, ⟨Session.oneRound.1, {}, m, none⟩) := by
  have hs := Session.Reached.fresh {} default default
  have hst : (Session.fresh {} default default).start? .oneRound =
      some (Session.oneRound.1, Session.oneRound.2) :=
    (Option.some_get! _ (by decide +kernel)).symm
  obtain ⟨v, hv⟩ := Option.isSome_iff_exists.1 (show (Machine.run Session.oneRound.1 {} 16
    Session.oneRound.2).value?.isSome by decide +kernel)
  have hrun := Step.eq_finished hv
  exact ⟨v, _, hs, hst, hrun, hs.balanced hst hrun⟩

end YieldMachine
