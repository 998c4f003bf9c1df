import YieldMachine.Proofs.Iteration.Body
import YieldMachine.Proofs.Run.Balance

/-!
# Executions of loops

Whatever else a machine does between two events of a loop, the loop keeps to its protocol:
each step of a run is one that the progress of the loop allows, as long as its context is
there and the loop is open. It is closed by its last instruction, when a producer was
dropped, or by a return that leaves its activation.

    Session.Reached.loop_protocol
-/

namespace YieldMachine

variable {program : Program} {limits : Limits} {i : Instruction} {m m' : Machine} {seat : Seat}
  {l : Loop} {c₀ c c' : Context} {refs : List Ref} {iterators : List Node} {body : Node}

namespace Loop

variable {p : Progress} {r k : Nat} {v : Value} {vs : List Value} {ps : List Context}

/-! ## Steps -/

/-- A machine in which an execution of the loop has come so far. -/
structure Runs (l : Loop) (program : Program) (c₀ : Context) (m : Machine) (seat : Seat)
    (p : Progress) : Prop where
  sound : m.Sound program
  shows : l.Shows c₀ p m seat
  held : p.stage = .body → ∃ c, m.seat? seat = some c ∧ l.Held program c₀ p c

/-- The loop is closed with its value on the stack, and all else is as it was. -/
def Closes (l : Loop) (c₀ : Context) (i : Instruction) (m m' : Machine) (p : Progress) : Prop :=
  p.stage = .leave ∧ i.opcode = .iterEnd ∧ m'.consumers = m.consumers ∧
    m'.active = { c₀ with ip := l.exitAt + 1, stack := c₀.stack.push p.value }

/-- The body runs on, or comes to its end, unless its activation is left. -/
theorem Runs.bodyStep (hl : l.In program refs iterators body)
    (h : l.Runs program c₀ m seat ⟨r, k, v, vs, ps, .body⟩)
    (hi : program.instruction? m.active.ip = some i) (hm : Move program program.Trusts i m m')
    (hs' : m'.Sound program) (hc' : m'.seat? (m.reseat i seat) = some c')
    (hd : c₀.calls.size ≤ c'.calls.size) (hcount : 0 < l.count) :
    ∃ p', l.Takes program c₀ i m m' seat ⟨r, k, v, vs, ps, .body⟩ p' ∧
      l.Runs program c₀ m' (m.reseat i seat) p' := by
  obtain ⟨hs, ⟨hfits, c, hc, -, hinside⟩, hheld⟩ := h
  obtain ⟨c₁, hc₁, hheld⟩ := hheld rfl
  cases hc.symm.trans hc₁
  have hend : c.calls.size = c₀.calls.size → c.ip ≠ l.resumeAt 0 :=
    fun heq => Nat.ne_of_lt (hinside heq).2
  have hheld' := hheld.step hs hc hi hm hc' hend hd
  by_cases hdone : c'.calls.size = c₀.calls.size ∧ c'.ip = l.resumeAt 0
  · rcases hheld'.inside hdone.1 with ⟨-, w, hw⟩ | ⟨-, hlt⟩
    · have hpending : c'.pending = none := by rw [hw]; rfl
      have hne : c' ≠ c := fun heq => hend (heq ▸ hdone.1) (heq ▸ hdone.2)
      obtain ⟨hfront, hactive⟩ :=
        Context.ends_active hl.valued hs hs' hc hi hm hc' hpending hdone.2 hne
      have hfits : Progress.Fits l.count ⟨r + 1, 0, w, [], ps, .advance⟩ :=
        ⟨hcount, rfl, hfits.2.2⟩
      exact ⟨_, .finish, hs', .of_active hfits hfront (hactive.trans hw) (by simp) (by simp),
        fun hb => by cases hb⟩
    · exact absurd hdone.2 (Nat.ne_of_lt hlt)
  · refine ⟨_, .within, hs', ⟨hfits, c', hc', hheld'.rests, fun heq => ?_⟩,
      fun _ => ⟨c', hc', hheld'⟩⟩
    rcases hheld'.inside heq with ⟨hip, -⟩ | hin
    · exact absurd ⟨heq, hip⟩ hdone
    · exact hin

/-- A step of a machine that executes a loop is one of its protocol, or closes the loop, or
leaves the activation that it is in. -/
theorem Runs.step (hl : l.In program refs iterators body) (hcount : 0 < l.count)
    (hc₀ : c₀.pending = none) (h : l.Runs program c₀ m seat p)
    (hi : program.instruction? m.active.ip = some i)
    (hstep : m.step program limits = .running m')
    (hc' : m'.seat? (m.reseat i seat) = some c') :
    (∃ p', l.Takes program c₀ i m m' seat p p' ∧ l.Runs program c₀ m' (m.reseat i seat) p') ∨
      (l.Closes c₀ i m m' p ∧ c' = m'.active) ∨ c'.calls.size < c₀.calls.size := by
  have hsound := h.sound.step limits
  rw [hstep] at hsound
  cases hsound with
  | running hi' hm hs' =>
    cases hi.symm.trans hi'
    obtain ⟨r, k, v, vs, ps, stage⟩ := p
    cases stage with
    | advance =>
      cases r with
      | zero =>
        obtain ⟨htakes, hshows⟩ := h.shows.spawns hl hi hm
        exact .inl ⟨_, htakes, hs', hshows, fun hb => by cases hb⟩
      | succ r =>
        obtain ⟨htakes, hshows⟩ := h.shows.resumes hl h.sound hi hm
        exact .inl ⟨_, htakes, hs', hshows, fun hb => by cases hb⟩
    | await =>
      rcases h.shows.waits h.sound hs' hm hc' with ⟨p', htakes, hshows⟩ | hleft
      · refine .inl ⟨p', htakes, hs', hshows, fun hb => ?_⟩
        cases htakes <;> cases hb
      · exact .inr (.inr hleft)
    | store w =>
      obtain ⟨htakes, hshows⟩ := h.shows.stores hl hi hstep
      refine .inl ⟨_, htakes, hs', hshows, fun hb => ?_⟩
      rcases afterStore_cases r h.shows.fits.1 with ⟨hstage, -⟩ | ⟨hstage, -⟩ | ⟨hstage, -⟩ <;>
        rw [hstage] at hb <;> cases hb
    | again =>
      obtain ⟨htakes, hshows⟩ := h.shows.jumpsBack hl hi hm
      exact .inl ⟨_, htakes, hs', hshows, fun hb => by cases hb⟩
    | pass =>
      obtain ⟨htakes, hfront, hactive⟩ := h.shows.passes hl hi hm
      have hheld : l.Held program c₀ ⟨r, k, v, vs, ps, .body⟩ m'.active :=
        Held.enter hl hs' hactive
      have hseat : m'.seat? (m.reseat i seat) = some m'.active := by
        rw [hfront, Machine.seat?_front]
      refine .inl ⟨_, htakes, hs', ⟨h.shows.fits, _, hseat, hheld.rests, fun heq => ?_⟩,
        fun _ => ⟨_, hseat, hheld⟩⟩
      rcases hheld.inside heq with ⟨-, w, hw⟩ | hin
      · -- the body has not run yet: nothing stands on what the loop found
        rw [hactive] at hw
        have hsize := congrArg (fun c => c.stack.size) hw
        simp only [context, Progress.stack, Array.size_push] at hsize
        omega
      · exact hin
    | body =>
      rcases Nat.lt_or_ge c'.calls.size c₀.calls.size with hleft | hd
      · exact .inr (.inr hleft)
      · exact .inl (h.bodyStep hl hi hm hs' hc' hd hcount)
    | leave =>
      obtain ⟨hop, hcs, hfront, hactive⟩ := h.shows.closes hl hc₀ hi hm
      rw [hfront, Machine.seat?_front] at hc'
      exact .inr (.inl ⟨⟨rfl, hop, hcs, hactive⟩, (Option.some.inj hc').symm⟩)

/-! ## Open loops -/

/-- A loop that is executed is open. -/
theorem Shows.open (h : l.Shows c₀ p m seat) (hc : m.seat? seat = some c) :
    Loop.open? c₀ c = true := by
  have hcontext : Loop.open? c₀ (l.context c₀ p) = true := by
    simp [Loop.open?, context]
  obtain ⟨hfits, hstate⟩ := h
  have hactive : seat = m.front ∧ m.active = l.context c₀ p → Loop.open? c₀ c = true := by
    rintro ⟨rfl, ha⟩
    rw [Machine.seat?_front] at hc
    rw [← Option.some.inj hc, ha]
    exact hcontext
  cases hp : p.stage with
  | await =>
    rw [hp] at hstate
    obtain ⟨hpath, hget⟩ := hstate
    obtain ⟨hlt, -⟩ := Array.getElem?_eq_some_iff.1 hget
    obtain ⟨d, hd, hunder⟩ := Machine.seat?_eq_some.1 hc
    rw [Machine.spine_of_lt hlt, hget] at hd
    rw [hpath] at hunder
    cases hd
    cases hunder
    exact hcontext
  | body =>
    rw [hp] at hstate
    obtain ⟨d, hd, hrests, -⟩ := hstate
    cases hc.symm.trans hd
    have hcalls := hrests.length_le
    have hloops := hrests.loops.length_le
    rw [show (p.floor c₀).calls.length = c₀.calls.size from Array.length_toList] at hcalls
    rw [length_floor_loops, Array.length_toList] at hloops
    simp only [Loop.open?, decide_eq_true_eq]
    omega
  | _ =>
    rw [hp] at hstate
    exact hactive hstate

theorem Closes.not_open (h : l.Closes c₀ i m m' p) : Loop.open? c₀ m'.active = false := by
  rw [h.2.2.2]
  simp [Loop.open?]

theorem In.count_pos (hl : l.In program refs iterators body) (hne : iterators ≠ []) :
    0 < l.count := by
  have hlen : iterators.length = l.count := hl.lengths.symm.trans hl.refs.length_eq
  exact hlen ▸ List.length_pos_iff.2 hne

end Loop

/-! ## Runs -/

/-- A loop with iterators that is compiled anywhere in a program, and that a run comes to,
is executed as its protocol says, for as long as its context is followed and the loop is
open. When the loop is not open any more, it was closed behind a dropped producer, with the
value of the last run of its body on the stack, or its activation was left. -/
theorem Session.Reached.loop_protocol {s : Session} {node : Node} {m₀ m₁ : Machine} {n : Nat}
    (hs : s.Reached) (hm : s.Visits node program m₀) (hl : l.In program refs iterators body)
    (hne : iterators ≠ []) (hbase : m₀.active.ip = l.base)
    (hopens : Machine.run program s.limits 2 m₀ = .running m₁)
    (hlives : m₁.follow program s.limits (Loop.open? m₀.active) n m₀.front = some (m, seat)) :
    ∃ p, l.Path program s.limits m₀.active ⟨m₁, m₀.front, .start⟩ ⟨m, seat, p⟩ ∧
      l.Shows m₀.active p m seat ∧
      (∀ k w, k < p.next → p.values[k]? = some w →
        l.Received program s.limits m₀.active ⟨m₁, m₀.front, .start⟩ ⟨m, seat, p⟩ k w) ∧
      ∀ i m' c', program.instruction? m.active.ip = some i →
        m.step program s.limits = .running m' → m'.seat? (m.reseat i seat) = some c' →
        Loop.open? m₀.active c' = false →
        l.Closes m₀.active i m m' p ∨ c'.calls.size < m₀.active.calls.size := by
  have hsound := hs.visits hm
  have hcount := hl.count_pos hne
  have hpending := hsound.active.pending
  obtain ⟨hshows, hfront⟩ := hl.opens hsound hbase hcount hopens
  have hsound₁ : m₁.Sound program := by
    have hrun := hsound.run s.limits 2
    rwa [hopens] at hrun
  have hstart : l.Runs program m₀.active m₁ m₀.front .start :=
    hfront ▸ ⟨hsound₁, hshows, fun hb => by cases hb⟩
  -- by induction on the run: one step of the loop's protocol for each step of the machine
  obtain ⟨p, hpath, hruns⟩ := Machine.follow_invariant
    (I := fun m seat => ∃ p, l.Path program s.limits m₀.active ⟨m₁, m₀.front, .start⟩ ⟨m, seat, p⟩ ∧
      l.Runs program m₀.active m seat p)
    (fun {m seat i m' c} ⟨p, hpath, hruns⟩ hi hstep hc hkeep => by
      rcases hruns.step hl hcount hpending hi hstep hc with
        ⟨p', htakes, hruns'⟩ | ⟨hcloses, rfl⟩ | hleft
      · exact ⟨p', hpath.tail (.step hi hstep htakes hruns'.shows), hruns'⟩
      · rw [hcloses.not_open] at hkeep
        cases hkeep
      · simp only [Loop.open?, decide_eq_true_eq] at hkeep
        omega) ⟨_, .refl, hstart⟩ hlives
  refine ⟨p, hpath, hruns.shows, Loop.Path.received hpath hshows.fits rfl,
    fun i m' c' hi hstep hc' hopen => ?_⟩
  rcases hruns.step hl hcount hpending hi hstep hc' with ⟨p', -, hruns'⟩ | ⟨hcloses, -⟩ | hleft
  · rw [hruns'.shows.open hc'] at hopen
    cases hopen
  · exact .inl hcloses
  · exact .inr hleft

/-- The machine after `n` steps of the call whose loop takes a round. -/
def Machine.oneRound (n : Nat) : Machine :=
  (Machine.run Session.oneRound.1 {} n Session.oneRound.2).machine

/-- The loop of the function that is called stands behind the jump over its body. -/
theorem Session.loop_oneRound {start : Machine}
    (h : (Session.fresh {} default default).start? .oneRound = some (program, start)) :
    ∃ l : Loop, l.base = 1 ∧
      l.In program [.own 0] [.yield (.array [])] (.ref (.own 0)) := by
  obtain ⟨⟨code, r, hgained⟩, -⟩ := Session.start?_eq_some h
  have hcode := hgained.lowered
  have hholds := hgained.holds
  rw [Node.oneRound, Code] at hcode
  obtain ⟨-, ac, fc, fr, hargs, hfunction, rfl⟩ := hcode
  rw [CodeAll] at hargs
  rw [Code] at hfunction
  obtain ⟨-, bc, br, hloop, rfl⟩ := hfunction
  subst hargs
  simp only [pushed, Program.holds_append, List.nil_append] at hholds
  exact hloop.loop hholds.1.1.1.2

/-- The loop takes one round, its producer is dropped in the second one, and it is closed. -/
theorem Session.loop_protocol_oneRound :
    ∃ (program : Program) (m₀ m₁ m m' : Machine) (seat : Seat) (l : Loop) (i : Instruction)
      (p : Loop.Progress),
      (Session.fresh {} default default).Visits .oneRound program m₀ ∧
      l.In program [.own 0] [.yield (.array [])] (.ref (.own 0)) ∧ m₀.active.ip = l.base ∧
      Machine.run program {} 2 m₀ = .running m₁ ∧
      m₁.follow program {} (Loop.open? m₀.active) 8 m₀.front = some (m, seat) ∧
      program.instruction? m.active.ip = some i ∧ m.step program {} = .running m' ∧
      l.Path program {} m₀.active ⟨m₁, m₀.front, .start⟩ ⟨m, seat, p⟩ ∧
      l.Shows m₀.active p m seat ∧
      (∀ k w, k < p.next → p.values[k]? = some w →
        l.Received program {} m₀.active ⟨m₁, m₀.front, .start⟩ ⟨m, seat, p⟩ k w) ∧
      l.Closes m₀.active i m m' p := by
  have hs := Session.Reached.fresh {} default default
  have hrun : ∀ n k, (Machine.run Session.oneRound.1 {} (n + k) Session.oneRound.2).isEnd =
      false → Machine.run Session.oneRound.1 {} k (Machine.oneRound n) =
        .running (Machine.oneRound (n + k)) :=
    fun n k h => Machine.run_machine h
  have hst : (Session.fresh {} default default).start? .oneRound =
      some (Session.oneRound.1, Session.oneRound.2) :=
    (Option.some_get! _ (by decide +kernel)).symm
  obtain ⟨l, hbase, hl⟩ := Session.loop_oneRound hst
  -- the loop begins behind step 3, and is left behind step 13
  have hm : (Session.fresh {} default default).Visits .oneRound Session.oneRound.1
      (Machine.oneRound 3) := ⟨_, 3, hst, hrun 0 3 (by decide +kernel)⟩
  have hip : (Machine.oneRound 3).active.ip = l.base :=
    hbase ▸ (by decide +kernel : (Machine.oneRound 3).active.ip = 1)
  have hopens := hrun 3 2 (by decide +kernel)
  have hlives : (Machine.oneRound 5).follow Session.oneRound.1 {}
      (Loop.open? (Machine.oneRound 3).active) 8 (Machine.oneRound 3).front =
        some (Machine.oneRound 13, ⟨0, []⟩) :=
    Machine.follow_of_run (hrun 5 8 (by decide +kernel)) (by decide +kernel)
  obtain ⟨i, hi⟩ : ∃ i, Session.oneRound.1.instruction? (Machine.oneRound 13).active.ip = some i :=
    Option.isSome_iff_exists.1 (by decide +kernel)
  have hstep : (Machine.oneRound 13).step Session.oneRound.1 {} = .running (Machine.oneRound 14) :=
    Machine.run_one.symm.trans (hrun 13 1 (by decide +kernel))
  have hseat : (Machine.oneRound 14).seat? ((Machine.oneRound 13).reseat i ⟨0, []⟩) =
      some (Machine.oneRound 14).active := by
    have hreseat : (Session.oneRound.1.instruction? (Machine.oneRound 13).active.ip).map
        (fun i => (Machine.oneRound 13).reseat i ⟨0, []⟩) = some (Machine.oneRound 14).front := by
      decide +kernel
    rw [hi, Option.map_some, Option.some.injEq] at hreseat
    rw [hreseat, Machine.seat?_front]
  obtain ⟨p, hpath, hshows, hreceived, hends⟩ :=
    hs.loop_protocol hm hl (by simp) hip hopens hlives
  refine ⟨_, _, _, _, _, _, l, i, p, hm, hl, hip, hopens, hlives, hi, hstep, hpath, hshows,
    hreceived, ?_⟩
  rcases hends _ _ _ hi hstep hseat (by decide +kernel) with hcloses | hleft
  · exact hcloses
  · exact absurd hleft (by decide +kernel)

end YieldMachine
