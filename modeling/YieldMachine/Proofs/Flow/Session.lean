import YieldMachine.Proofs.Compile.Growth
import YieldMachine.Proofs.Flow.Compiled
import YieldMachine.Proofs.Flow.Machine
import YieldMachine.Session

/-!
# Compiled code keeps to the machine

Whatever statements a session has evaluated, a statement that compiles runs through
sound machines only. It finishes, exits, runs on, or fails for a reason that lies in
the program as written: a limit is reached, a condition is no boolean, a return or a
yield stands where there is nothing to return from or to yield to, or a local variable
names a slot that its frame does not have. It never fails because its code is broken.

    s.Reached → s.eval fuel node = some (.error (.runtime fault), s') → Permitted … fault.cause
-/

namespace YieldMachine

/-! ## Sessions -/

/-- The sessions that evaluating statements leads to, whatever became of each. -/
inductive Session.Reached : Session → Prop
  | fresh (limits : Limits) (console : Console) (journal : Journal) :
      Session.Reached (.fresh limits console journal)
  | eval {s s' : Session} {fuel : Nat} {node : Node} {result : Except SessionError Value} :
      s.Reached → s.eval fuel node = some (result, s') → s'.Reached
  | take {s : Session} : s.Reached → s.take.2.2.Reached

/-! ## Growing programs -/

theorem Program.Trusts.grow {p q : Program} (h : p.Within q) {f : Func} (hf : p.Trusts f) :
    q.Trusts f :=
  Safe.grow h (by decide) hf

theorem Machine.Memory.mono {F G : Func → Prop} (h : ∀ f, F f → G f) {m : Machine}
    (hm : m.Memory F) : m.Memory G :=
  ⟨fun name => (hm.globals name).mono h, fun frame hf v hv => (hm.heap frame hf v hv).mono h⟩

/-- A machine that has not run holds no function. -/
theorem Machine.Memory.fresh (F : Func → Prop) (console : Console) (journal : Journal) :
    (Machine.fresh console journal).Memory F := by
  refine ⟨fun name => ?_, fun frame hf => absurd hf (Array.not_mem_empty frame)⟩
  have hnone : Globals.empty.get? name = none := by
    unfold Globals.get? Globals.empty
    simp
  show (Globals.empty.get name).AllFunctions _
  rw [Globals.get, hnone]
  trivial

/-! ## Runs -/

variable {program : Program} {limits : Limits} {m m' : Machine}

/-- A statement starts with a sound machine. -/
theorem Machine.Memory.restart {entry : Nat} (hm : m.Memory program.Trusts)
    (hs : Safe program program.Ends entry .statement) : (m.restart entry).Sound program :=
  ⟨⟨rfl, [], hs, .nil⟩, Context.Keeps.start _ _, fun _ _ h => by simp [Machine.restart] at h,
    fun _ _ h => by simp [Machine.restart] at h, ⟨hm.globals, hm.heap⟩⟩

/-- What a run of a sound machine can come to. -/
def SoundRun (program : Program) (limits : Limits) (m : Machine) : Step → Prop
  | .running m' => m'.Sound program
  | .finished _ m' | .exited _ m' => m'.Memory program.Trusts
  | .faulted fault m' => m'.Memory program.Trusts ∧ ∃ (n : Nat) (m₁ : Machine) (i : Instruction),
      Machine.run program limits n m = .running m₁ ∧ m₁.step program limits = .faulted fault m' ∧
      fault.ip = m₁.active.ip ∧ program.instruction? fault.ip = some i ∧
      Permitted m₁.active.frames m₁.heap i fault.cause

/-- By induction on the fuel: each step of a sound machine leads to a sound machine. -/
theorem Machine.Sound.run (h : m.Sound program) (limits : Limits) (fuel : Nat) :
    SoundRun program limits m (Machine.run program limits fuel m) := by
  induction fuel generalizing m with
  | zero => exact h
  | succ fuel ih =>
    rw [Machine.run_succ]
    have hstep := h.step limits
    cases hst : m.step program limits with
    | running m₁ =>
      rw [hst] at hstep
      cases hstep with
      | running _ _ hsound =>
        have hrun := ih hsound
        dsimp only
        cases hr : Machine.run program limits fuel m₁ with
        | faulted fault m₂ =>
          rw [hr] at hrun
          obtain ⟨hmem, n, m₃, i, hn, hrest⟩ := hrun
          refine ⟨hmem, n + 1, m₃, i, ?_, hrest⟩
          rw [Machine.run_succ, hst]
          exact hn
        | running m₂ =>
          rw [hr] at hrun
          exact hrun
        | finished v m₂ =>
          rw [hr] at hrun
          exact hrun
        | exited status m₂ =>
          rw [hr] at hrun
          exact hrun
    | finished v m₁ =>
      rw [hst] at hstep
      cases hstep
      exact h.memory
    | exited status m₁ =>
      rw [hst] at hstep
      cases hstep with
      | exited hm => exact hm
    | faulted fault m₁ =>
      rw [hst] at hstep
      cases hstep with
      | faulted hi hp hm => exact ⟨hm, 0, m, _, rfl, hst, rfl, hi, hp⟩

/-! ## Statements -/

/-- Every function in the memory of a session can be called. -/
def Session.Steady (s : Session) : Prop :=
  s.machine.Memory s.program.Trusts

/-- The program and the machine that a statement starts with, if it compiles. -/
def Session.start? (s : Session) (node : Node) : Option (Program × Machine) :=
  match s.exitCode, s.program.compile s.machine.journal node with
  | none, ⟨.ok entry, program, journal⟩ =>
    some (program, Machine.restart { s.machine with
      journal := journal.record (.evaluating entry program.code.size) } entry)
  | _, _ => none

/-- The run of a statement comes to a machine. -/
def Session.Visits (s : Session) (node : Node) (program : Program) (m : Machine) : Prop :=
  ∃ start n, s.start? node = some (program, start) ∧
    Machine.run program s.limits n start = .running m

/-- What a session makes of the end of a run. -/
def Session.ended (program : Program) (limits : Limits) :
    Step → Option (Except SessionError Value × Session)
  | .running _ => none
  | .finished v m => some (.ok v, ⟨program, limits, m, none⟩)
  | .exited status m => some (.ok (.int status), ⟨program, limits, m, some status⟩)
  | .faulted fault m =>
    some (.error (.runtime fault), ⟨program, limits, m.restart program.code.size, none⟩)

/-- A statement that compiles is the run of the machine it starts with. -/
theorem Session.eval_of_start {s : Session} {node : Node} {start : Machine}
    (h : s.start? node = some (program, start)) (fuel : Nat) :
    s.eval fuel node =
      Session.ended program s.limits (Machine.run program s.limits fuel start) := by
  obtain ⟨program₀, limits, ⟨active, consumers, globals, heap, console, journal⟩, exitCode⟩ := s
  cases exitCode with
  | some status => cases h
  | none =>
    unfold Session.start? at h
    unfold Session.eval
    dsimp only at h ⊢
    split at h
    · next hc =>
      cases h
      simp only [hc]
      unfold Machine.runFrom
      generalize Machine.run _ _ _ _ = st
      cases st <;> rfl
    · cases h

/-- A statement that does not start leaves program and memory as they were, but for constants. -/
theorem Session.eval_of_not_start {s s' : Session} {fuel : Nat} {node : Node}
    {result : Except SessionError Value} (h : s.start? node = none)
    (he : s.eval fuel node = some (result, s')) :
    s.program.Within s'.program ∧ s'.machine.globals = s.machine.globals ∧
      s'.machine.heap = s.machine.heap ∧ ∀ fault, result ≠ .error (.runtime fault) := by
  obtain ⟨program, limits, ⟨active, consumers, globals, heap, console, journal⟩, exitCode⟩ := s
  cases exitCode with
  | some status =>
    cases he
    exact ⟨.refl _, rfl, rfl, nofun⟩
  | none =>
    unfold Session.start? at h
    unfold Session.eval at he
    dsimp only at h he
    split at he
    · next e program' journal' hc =>
      cases he
      exact ⟨Program.compile_error hc, rfl, rfl, nofun⟩
    · next entry program' journal' hc =>
      rw [hc] at h
      cases h

/-- A statement that compiles starts in a session that has not exited. -/
theorem Session.start?_of_compile {s : Session} {node : Node} {entry : Nat} {journal : Journal}
    (hexit : s.exitCode = none)
    (h : s.program.compile s.machine.journal node = ⟨.ok entry, program, journal⟩) :
    ∃ start, s.start? node = some (program, start) := by
  unfold Session.start?
  rw [hexit, h]
  exact ⟨_, rfl⟩

/-- A statement starts at its own code, with the memory that the session has. -/
theorem Session.start?_eq_some {s : Session} {node : Node} {start : Machine}
    (h : s.start? node = some (program, start)) :
    (∃ code r, s.program.Gained program node code r) ∧
      start.active = .start s.program.code.size #[] ∧ start.consumers = #[] ∧
      start.globals = s.machine.globals ∧ start.heap = s.machine.heap := by
  obtain ⟨program₀, limits, ⟨active, consumers, globals, heap, console, journal⟩, exitCode⟩ := s
  unfold Session.start? at h
  dsimp only at h
  split at h
  · next _ entry program' journal' hc =>
    cases h
    obtain ⟨rfl, code, r, hgained⟩ := Program.compile_ok hc
    exact ⟨⟨code, r, hgained⟩, rfl, rfl, rfl, rfl⟩
  · cases h

/-- A steady session starts its statements with sound machines. -/
theorem Session.Steady.start {s : Session} {node : Node} {start : Machine} (hs : s.Steady)
    (h : s.start? node = some (program, start)) :
    start.Sound program ∧ start.active = .start s.program.code.size #[] ∧ start.consumers = #[] := by
  obtain ⟨⟨code, r, hgained⟩, hactive, hconsumers, hglobals, hheap⟩ := Session.start?_eq_some h
  have hmem : start.Memory program.Trusts :=
    Machine.Memory.mono (fun _ => Program.Trusts.grow hgained.within)
      ⟨hglobals ▸ hs.globals, hheap ▸ hs.heap⟩
  have hrestart : start.restart s.program.code.size = start := by
    obtain ⟨active, consumers, globals, heap, console, journal⟩ := start
    cases hactive
    cases hconsumers
    rfl
  exact ⟨hrestart ▸ hmem.restart hgained.safe, hactive, hconsumers⟩

/-- Evaluating a statement keeps a session steady. -/
theorem Session.Steady.eval {s s' : Session} {fuel : Nat} {node : Node}
    {result : Except SessionError Value} (hs : s.Steady)
    (h : s.eval fuel node = some (result, s')) : s'.Steady := by
  cases hst : s.start? node with
  | none =>
    obtain ⟨hwithin, hglobals, hheap, -⟩ := Session.eval_of_not_start hst h
    exact Machine.Memory.mono (fun _ => Program.Trusts.grow hwithin)
      ⟨hglobals ▸ hs.globals, hheap ▸ hs.heap⟩
  | some pair =>
    obtain ⟨program, start⟩ := pair
    rw [Session.eval_of_start hst] at h
    have hrun := (hs.start hst).1.run s.limits fuel
    cases hr : Machine.run program s.limits fuel start with
    | running m =>
      rw [hr] at h
      cases h
    | finished v m =>
      rw [hr] at h hrun
      cases h
      exact hrun
    | exited status m =>
      rw [hr] at h hrun
      cases h
      exact hrun
    | faulted fault m =>
      rw [hr] at h hrun
      cases h
      exact ⟨hrun.1.globals, hrun.1.heap⟩

theorem Session.Reached.steady {s : Session} (h : s.Reached) : s.Steady := by
  induction h with
  | fresh limits console journal => exact .fresh _ console journal
  | eval _ he ih => exact ih.eval he
  | @take s _ ih =>
    obtain ⟨program, limits, ⟨active, consumers, globals, heap, console, journal⟩, exitCode⟩ := s
    exact ⟨ih.globals, ih.heap⟩

/-- The machines that a statement comes to are sound. -/
theorem Session.Reached.visits {s : Session} {node : Node} (hs : s.Reached)
    (h : s.Visits node program m) : m.Sound program := by
  obtain ⟨start, n, hst, hrun⟩ := h
  have hsound := (hs.steady.start hst).1.run s.limits n
  rwa [hrun] at hsound

/-- A statement that compiles fails only for a reason that its own code is not to blame for:
with the instruction that failed and the machine it failed on, the cause is permitted. -/
theorem Session.Reached.fault_permitted {s s' : Session} {fuel : Nat} {node : Node}
    {fault : Fault} (hs : s.Reached) (h : s.eval fuel node = some (.error (.runtime fault), s')) :
    ∃ (start m m' : Machine) (n : Nat) (i : Instruction),
      s.start? node = some (s'.program, start) ∧
      Machine.run s'.program s'.limits n start = .running m ∧
      m.step s'.program s'.limits = .faulted fault m' ∧ fault.ip = m.active.ip ∧
      s'.program.instruction? fault.ip = some i ∧
      Permitted m.active.frames m.heap i fault.cause := by
  cases hst : s.start? node with
  | none => exact absurd rfl ((Session.eval_of_not_start hst h).2.2.2 fault)
  | some pair =>
    obtain ⟨program, start⟩ := pair
    rw [Session.eval_of_start hst] at h
    have hrun := (hs.steady.start hst).1.run s.limits fuel
    cases hr : Machine.run program s.limits fuel start with
    | running m =>
      rw [hr] at h
      cases h
    | finished v m =>
      rw [hr] at h
      cases h
    | exited status m =>
      rw [hr] at h
      cases h
    | faulted fault m' =>
      rw [hr] at h hrun
      cases h
      obtain ⟨-, n, m, i, hn, hstep, hip, hi, hp⟩ := hrun
      exact ⟨start, m, m', n, i, rfl, hn, hstep, hip, hi, hp⟩

/-- A function that reads a slot of its maker, but was made where no frame is: the code is
in order, and the frame is missing. -/
theorem Session.fault_permitted_outer :
    (Session.fresh {} default default).Reached ∧ ∃ s' : Session,
      (Session.fresh {} default default).eval 8 (.call (.function 0 0 (.ref (.outer 0))) []) =
        some (.error (.runtime ⟨.frameUnderflow, 1⟩), s') ∧
      ∃ (start m m' : Machine) (n : Nat) (i : Instruction),
        (Session.fresh {} default default).start? (.call (.function 0 0 (.ref (.outer 0))) []) =
          some (s'.program, start) ∧
        Machine.run s'.program s'.limits n start = .running m ∧
        m.step s'.program s'.limits = .faulted ⟨.frameUnderflow, 1⟩ m' ∧ 1 = m.active.ip ∧
        s'.program.instruction? 1 = some i ∧
        Permitted m.active.frames m.heap i .frameUnderflow :=
  have hs := Session.Reached.fresh {} default default
  have he : (Session.fresh {} default default).eval 8
      (.call (.function 0 0 (.ref (.outer 0))) []) = some (.error (.runtime ⟨.frameUnderflow, 1⟩), _) :=
    rfl
  ⟨hs, _, he, hs.fault_permitted he⟩

end YieldMachine
