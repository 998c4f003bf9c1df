import YieldMachine.Proofs.Scope.Compiled
import YieldMachine.Proofs.Scope.Lexical
import YieldMachine.Proofs.Scope.Owner

/-!
# Closures are lexical

A session that evaluates only well-scoped statements never misses a frame or a slot. All
code that serves an activation, in its own context or in a producer of one of its loops,
runs on the new frame of that activation; and the frame behind it is the one of the
activation that made the function.

    Session.Scoped.lexical
-/

namespace YieldMachine

/-! ## Definitions -/

/-- Sessions that have evaluated well-scoped statements only: each with the session that
evaluated it, the last one first. -/
inductive Session.Scoped : Session → List (Session × Node) → Prop
  | fresh (limits : Limits) (console : Console) (journal : Journal) :
      Session.Scoped (.fresh limits console journal) []
  | eval {s s' : Session} {past : List (Session × Node)} {fuel : Nat} {node : Node}
      {result : Except SessionError Value} :
      s.Scoped past → node.Scoped [] → s.eval fuel node = some (result, s') →
      s'.Scoped ((s, node) :: past)
  | take {s : Session} {past : List (Session × Node)} : s.Scoped past → s.take.2.2.Scoped past

/-- A statement comes to a machine that calls a function, and from there to one that does
something for the activation of that call. -/
def Session.Activates (s : Session) (node : Node) (program : Program) (m : Machine) (f : Func)
    (m' : Machine) : Prop :=
  s.Visits node program m ∧
    ∃ seat, m.Calls program s.limits f m' seat ∧ m'.Serves seat (m.active.calls.size + 1)

/-- The machine makes a function. -/
def Machine.Makes (program : Program) (limits : Limits) (m : Machine) (f : Func) : Prop :=
  ∃ i m₁, program.instruction? m.active.ip = some i ∧ i.opcode = .makeFunction ∧
    m.step program limits = .running m₁ ∧ m₁.active.stack.back? = some (.function f)

/-- A function that captured a frame was made for the activation whose frame that is. -/
def Func.Made (past : List (Session × Node)) (f : Func) : Prop :=
  ∀ captured, f.captured = some captured → ∃ s node program m g m', (s, node) ∈ past ∧
    s.Activates node program m g m' ∧ m.heap.size = captured ∧ m'.Makes program s.limits f

/-- An operand stands for a slot of a frame: reading and writing it reads and writes there. -/
structure Machine.Addresses (program : Program) (m : Machine) (o : Operand) (id : FrameId) :
    Prop where
  nonneg : 0 ≤ o.address
  there : o.address.toNat < (m.heap.frame id).size
  reads : ∀ v, (m.heap.frame id)[o.address.toNat]? = some v → Action.fetch program o m = .ok v m
  writes : ∀ limits v, Action.store program limits o v m =
    .ok () { m with heap := m.heap.store id o.address.toNat v }

/-- The active context runs on a frame with all slots of a function, and on the frame that the
function captured. Every variable that its instruction names stands for a slot of these. -/
structure Machine.RunsOn (program : Program) (m : Machine) (id : FrameId) (f : Func) :
    Prop where
  own : m.active.frames.at? 0 = some id
  size : (m.heap.frame id).size = max f.params f.frameSize
  outer : ∀ captured, f.captured = some captured → m.active.frames.at? 1 = some captured
  ownSlots : ∀ i, program.instruction? m.active.ip = some i → ∀ o ∈ [i.a, i.b, i.c],
    o.mode = .frame → m.Addresses program o id
  outerSlots : ∀ i, program.instruction? m.active.ip = some i → ∀ o ∈ [i.a, i.b, i.c],
    o.mode = .closure → ∃ captured, f.captured = some captured ∧ m.Addresses program o captured

/-- What is known while a statement runs: where functions were made, and which call each
frame belongs to. -/
def Session.ledger (s : Session) (past : List (Session × Node)) (node : Node)
    (program : Program) : Ledger where
  made := Func.Made ((s, node) :: past)
  called id f := ∃ m m₁, s.Visits node program m ∧ m.heap.size = id ∧
    m.Enters program s.limits f m₁

/-! ## Steps -/

section

variable {program : Program} {limits : Limits} {known : Ledger} {m m' : Machine} {f : Func}
  {i : Instruction}

/-- A ledger has what the next step makes and calls. -/
structure Ledger.Records (known : Ledger) (program : Program) (limits : Limits) (m : Machine) :
    Prop where
  makes : ∀ f, m.Makes program limits f → known.made f
  calls : ∀ f m₁, m.Enters program limits f m₁ → known.called m.heap.size f

/-- A frame or a slot is missing. -/
def Cause.OutOfScope : Cause → Prop
  | .frameUnderflow | .slotOutOfRange _ _ => True
  | _ => False

/-- What one step of a lexical machine can come to. -/
inductive LexicalStep (program : Program) (known : Ledger) (m : Machine) : Step → Prop
  | running {m' : Machine} : m'.Lexical program known → LexicalStep program known m (.running m')
  | finished {v : Value} : LexicalStep program known m (.finished v m)
  | exited {status : Int64} {m' : Machine} : m'.Memory (Func.Scoped program known.made m'.heap) →
      LexicalStep program known m (.exited status m')
  | faulted {fault : Fault} {m' : Machine} : ¬ fault.cause.OutOfScope →
      m'.Memory (Func.Scoped program known.made m'.heap) →
      LexicalStep program known m (.faulted fault m')

theorem Instruction.opcode_of_makeFunction (h : i.effect = .makeFunction) :
    i.opcode = .makeFunction := by
  obtain ⟨opcode, a, b, c⟩ := i
  cases opcode <;> first | rfl | cases h

/-- What a sound machine makes is the function that its instruction says. -/
theorem Machine.Makes.captured (h : m.Makes program limits f) (hs : m.Sound program) :
    f.captured = m.active.frames.at? 0 := by
  obtain ⟨i, m₁, hi, hop, hstep, hback⟩ := h
  have he : i.effect = .makeFunction := by rw [Instruction.effect, hop]; rfl
  obtain ⟨hlegal, -⟩ := hs.ready hi
  rw [Instruction.Legal, he] at hlegal
  rcases Machine.step_makeFunction hi he hlegal with ⟨m', hstep', hback'⟩ | ⟨m', hstep', -⟩
  · cases hstep.symm.trans hstep'
    cases hback.symm.trans hback'
    rfl
  · cases hstep.symm.trans hstep'

/-- A lexical machine takes a step to a lexical machine, or ends without missing anything. -/
theorem Machine.Lexical.step (h : m.Lexical program known) (hs : m.Sound program)
    (hco : m.Coherent) (hk : known.Records program limits m) :
    LexicalStep program known m (m.step program limits) := by
  cases hi : program.instruction? m.active.ip with
  | none =>
    have hstep := hs.step limits
    have htaken := m.step_taken program limits
    generalize m.step program limits = st at hstep htaken ⊢
    cases htaken with
    | finished => exact .finished
    | running hi' | exited hi' | failed hi' =>
      rw [hi] at hi'
      cases hi'
    | unread =>
      cases hstep with
      | faulted hi' =>
        rw [hi] at hi'
        cases hi'
  | some i =>
    obtain ⟨hlegal, -⟩ := hs.ready hi
    by_cases hmade : i.effect = .makeFunction → known.made (i.made m.active.ip m.active.frames)
    · have hstep : Stepped program _ i m (m.step program limits) :=
        Machine.step_stepped hi hlegal (h.ready hs hi hmade)
      generalize hst : m.step program limits = st at hstep ⊢
      cases hstep with
      | running hm =>
        exact .running (h.move hs hco hi (fun f he hval hdepth =>
          hk.calls f _ ⟨i, hi, Instruction.opcode_of_call he, hval, hst, hdepth⟩) hm)
      | exited hm hheap => exact .exited (hheap ▸ hm)
      | faulted hf =>
        obtain ⟨hm, hheap, hp⟩ := hf
        refine .faulted (fun hout => ?_) (hheap ▸ hm)
        cases hp with
        | missing ho hmissing => exact h.present hi ho hmissing
        | stackOverflow | frameOverflow | contextOverflow | nonBoolCondition | returnOutsideCall
        | yieldOutsideProducer => exact hout
    · -- a function that is not on record was not made: there was no room for it
      obtain ⟨he, hnot⟩ := Classical.not_imp.1 hmade
      rw [Instruction.Legal, he] at hlegal
      rcases Machine.step_makeFunction hi he hlegal with
        ⟨m', hst, hback⟩ | ⟨m', hst, hglobals, hheap⟩
      · exact absurd (hk.makes _ ⟨i, m', hi, Instruction.opcode_of_makeFunction he, hst, hback⟩) hnot
      · rw [hst]
        exact .faulted id ⟨hglobals ▸ hheap ▸ h.memory.globals, hheap ▸ h.memory.heap⟩

/-- By induction on the run, with what is known of the machine before its last step. -/
theorem Machine.Lexical.run {start : Machine} {n : Nat} (h : start.Lexical program known)
    (hs : start.Sound program) (hco : start.Coherent)
    (hk : ∀ n m, Machine.run program limits n start = .running m → known.Records program limits m)
    (hrun : Machine.run program limits n start = .running m) : m.Lexical program known := by
  induction n generalizing m with
  | zero =>
    cases hrun
    exact h
  | succ n ih =>
    obtain ⟨m₁, hrun₁, hstep⟩ := Machine.run_last hrun
    have hsound := hs.run limits n
    have hcoherent := hco.run program limits n
    rw [hrun₁] at hsound hcoherent
    have htaken := (ih hrun₁).step hsound hcoherent (hk n m₁ hrun₁)
    rw [hstep] at htaken
    cases htaken with
    | running hl => exact hl

end

/-! ## Statements -/

section

variable {s s' : Session} {past : List (Session × Node)} {node : Node} {program q : Program}
  {m m' : Machine} {f : Func} {n : Nat} {made made' : Func → Prop} {heap : Heap}

theorem Func.Scoped.grow (hp : program.Within q) (hm : made f → made' f)
    (h : f.Scoped program made heap) : f.Scoped q made' heap := by
  obtain ⟨y, hy, hc⟩ := h.body
  exact ⟨⟨y, hy.grow hp (List.cons_ne_nil _ _), hc⟩, hm h.made⟩

/-- The past only gets longer. -/
theorem Func.Made.cons (p : Session × Node) (h : f.Made past) : f.Made (p :: past) := by
  intro captured hc
  obtain ⟨s, node, program, m, g, m', hmem, hrest⟩ := h captured hc
  exact ⟨s, node, program, m, g, m', List.mem_cons_of_mem _ hmem, hrest⟩

/-- What a session remembers: its functions are well scoped, and were made where they say. -/
def Session.Recalls (s : Session) (past : List (Session × Node)) : Prop :=
  s.machine.Memory (Func.Scoped s.program (Func.Made past) s.machine.heap)

/-- A session goes on with a longer program, a longer past and its memory. -/
theorem Session.Recalls.grow (h : s.Recalls past) (hp : s.program.Within program)
    (hg : m.globals = s.machine.globals) (hh : m.heap = s.machine.heap) (p : Session × Node) :
    m.Memory (Func.Scoped program (Func.Made (p :: past)) m.heap) := by
  have hmem := Machine.Memory.mono (fun _ hf => hf.grow hp (Func.Made.cons p)) h
  exact ⟨hg ▸ hh ▸ hmem.globals, hh ▸ hmem.heap⟩

/-- A statement of a fresh machine stands alone on its spine. -/
theorem Machine.seat?_start {ip : Nat} {frames : Chain} {seat : Seat} {c : Context}
    (ha : m.active = .start ip frames) (hcs : m.consumers = #[]) (hc : m.seat? seat = some c) :
    c.calls = #[] := by
  obtain ⟨d, hd, hunder⟩ := Machine.seat?_eq_some.1 hc
  have hlevel := Machine.le_of_spine hd
  rw [hcs] at hlevel
  rw [show seat.level = m.consumers.size by rw [hcs]; exact Nat.le_zero.1 hlevel,
    Machine.spine_top, ha] at hd
  cases hd
  cases hpath : seat.path with
  | nil =>
    rw [hpath] at hunder
    cases hunder
    rfl
  | cons place path =>
    rw [hpath] at hunder
    obtain ⟨p, hp, -⟩ := Option.bind_eq_some_iff.1 hunder
    exact absurd (Context.slot_lt hp) (Nat.not_lt_zero _)

/-- A well-scoped statement starts with a lexical machine. -/
theorem Session.Recalls.start {start : Machine} (h : s.Recalls past) (hnode : node.Scoped [])
    (hst : s.start? node = some (program, start)) :
    start.Lexical program (s.ledger past node program) := by
  obtain ⟨⟨code, r, hgained⟩, hactive, hconsumers, hglobals, hheap⟩ := Session.start?_eq_some hst
  have hruns : program.Runs (s.ledger past node program) start.heap s.program.code.size #[] :=
    ⟨[], hgained.scopes hnode, ⟨nofun, nofun, nofun⟩⟩
  refine ⟨h.grow hgained.within hglobals hheap _, ?_, ?_⟩
  all_goals rw [Machine.chain, hconsumers, hactive]
  · rintro c hc
    cases List.mem_singleton.1 hc
    exact .start hruns
  · exact List.isChain_singleton _

/-- The contexts of all machines that a statement comes to hang together. -/
theorem Session.Reached.coherent (hs : s.Reached) (hv : s.Visits node program m) :
    m.Coherent := by
  obtain ⟨start, n, hst, hrun⟩ := hv
  obtain ⟨-, hactive, hconsumers⟩ := hs.steady.start hst
  have hstart := Machine.Coherent.restart start s.program.code.size
  rw [Machine.restart, ← hactive, ← hconsumers] at hstart
  have hcoherent := hstart.run program s.limits n
  rwa [hrun] at hcoherent

/-- Producers run on the frames of their consumers in all machines that a statement comes to. -/
theorem Session.Reached.sharing (hs : s.Reached) (hv : s.Visits node program m) : m.Sharing := by
  obtain ⟨start, n, hst, hrun⟩ := hv
  have hstart : s.Visits node program start := ⟨start, 0, hst, rfl⟩
  obtain ⟨hsound, hactive, hconsumers⟩ := hs.steady.start hst
  exact (Machine.Sharing.start hactive hconsumers).run hsound (hs.coherent hstart) hrun

/-- All machines that a statement comes to stand on no frames but those of calls. -/
theorem Session.Reached.grounded (hs : s.Reached) (hv : s.Visits node program m) :
    m.Grounded := by
  obtain ⟨start, n, hst, hrun⟩ := hv
  obtain ⟨hsound, hactive, hconsumers⟩ := hs.steady.start hst
  exact (Machine.Grounded.start hactive hconsumers).run hsound hrun

/-- Code that serves an activation serves that of some call, and runs on the frame of it. -/
theorem Session.Reached.activated {seat : Seat} {depth : Nat} (hs : s.Reached)
    (hv : s.Visits node program m) (hserves : m.Serves seat (depth + 1)) :
    ∃ m₀ g, s.Activates node program m₀ g m ∧ m.active.frames.at? 0 = some m₀.heap.size := by
  have hshare := hs.sharing hv
  obtain ⟨start, n, hst, hrun⟩ := hv
  obtain ⟨hsound, hactive, hconsumers⟩ := hs.steady.start hst
  obtain ⟨c, hc, hsize, -⟩ := hshare.alike_of_serves hserves
  obtain ⟨k, m₀, g, -, hrun₀, rfl, hcalls⟩ := hsound.begun
    (fun _ _ => Machine.seat?_start hactive hconsumers) hrun hc
      (Nat.lt_of_lt_of_eq (Nat.lt_succ_self depth) hsize.symm)
  have hv₀ : s.Visits node program m₀ := ⟨start, k, hst, hrun₀⟩
  obtain ⟨halike, -⟩ := hcalls.alike (hs.visits hv₀) hshare hserves
  exact ⟨m₀, g, ⟨hv₀, seat, hcalls, hserves⟩, halike.own.trans (g.own_frames _ _)⟩

/-- While a statement runs, all that it makes and calls is on record. -/
theorem Session.Reached.records (hs : s.Reached) (hv : s.Visits node program m) :
    (s.ledger past node program).Records program s.limits m := by
  refine ⟨fun f hmakes captured hcaptured => ?_, fun f m₁ henters => ⟨m, m₁, hv, rfl, henters⟩⟩
  rw [hmakes.captured (hs.visits hv)] at hcaptured
  obtain ⟨seat, depth, hserves⟩ := (hs.sharing hv).served (hs.grounded hv) hcaptured
  obtain ⟨m₀, g, hactivates, hown⟩ := hs.activated hv hserves
  rw [hown] at hcaptured
  exact ⟨s, node, program, m₀, g, m, List.mem_cons_self, hactivates, Option.some.inj hcaptured,
    hmakes⟩

/-- All machines that a well-scoped statement comes to are lexical. -/
theorem Session.Recalls.visits (h : s.Recalls past) (hs : s.Reached) (hnode : node.Scoped [])
    (hv : s.Visits node program m) : m.Lexical program (s.ledger past node program) := by
  obtain ⟨start, n, hst, hrun⟩ := hv
  have hstart : s.Visits node program start := ⟨start, 0, hst, rfl⟩
  exact (h.start hnode hst).run (hs.visits hstart) (hs.coherent hstart)
    (fun n _ hr => hs.records ⟨start, n, hst, hr⟩) hrun

/-- What a statement comes to the end with. -/
theorem Session.Recalls.eval {fuel : Nat} {result : Except SessionError Value}
    (h : s.Recalls past) (hs : s.Reached) (hnode : node.Scoped [])
    (he : s.eval fuel node = some (result, s')) : s'.Recalls ((s, node) :: past) ∧
      ∀ fault, result = .error (.runtime fault) → ¬ fault.cause.OutOfScope := by
  cases hst : s.start? node with
  | none =>
    obtain ⟨hwithin, hglobals, hheap, hfault⟩ := Session.eval_of_not_start hst he
    exact ⟨h.grow hwithin hglobals hheap _, fun fault hf => absurd hf (hfault fault)⟩
  | some pair =>
    obtain ⟨program, start⟩ := pair
    rw [Session.eval_of_start hst] at he
    generalize hend : Machine.run program s.limits fuel start = st at he
    cases hisEnd : st.isEnd with
    | false =>
      rw [Step.eq_running hisEnd] at he
      cases he
    | true =>
      obtain ⟨k, m, -, hrun, hstep⟩ := Machine.run_isEnd hend hisEnd
      have hv : s.Visits node program m := ⟨start, k, hst, hrun⟩
      have hl := h.visits hs hnode hv
      have htaken := hl.step (hs.visits hv) (hs.coherent hv) (hs.records hv)
      rw [hstep] at htaken
      cases htaken with
      | running => cases hisEnd
      | finished =>
        cases he
        exact ⟨hl.memory, nofun⟩
      | exited hm =>
        cases he
        exact ⟨hm, nofun⟩
      | faulted hcause hm =>
        cases he
        exact ⟨⟨hm.globals, hm.heap⟩, by
          rintro fault ⟨⟩
          exact hcause⟩

theorem Session.Scoped.reached (hs : s.Scoped past) : s.Reached := by
  induction hs with
  | fresh limits console journal => exact .fresh limits console journal
  | eval _ _ he ih => exact .eval ih he
  | take _ ih => exact .take ih

theorem Session.Scoped.recalls (hs : s.Scoped past) : s.Recalls past := by
  induction hs with
  | fresh limits console journal => exact .fresh _ console journal
  | eval hs hnode he ih => exact (ih.eval hs.reached hnode he).1
  | @take s _ _ ih =>
    obtain ⟨program, limits, ⟨active, consumers, globals, heap, console, journal⟩, exitCode⟩ := s
    exact ⟨ih.globals, ih.heap⟩

/-! ## Activations -/

/-- A function that is called is well scoped, and was made where it says. -/
theorem Machine.Lexical.entered {known : Ledger} {limits : Limits} {m₁ : Machine}
    (h : m.Lexical program known) (hs : m.Sound program)
    (henters : m.Enters program limits f m₁) : f.Scoped program known.made m.heap := by
  obtain ⟨i, hi, hcall, hval, hstep, hdepth⟩ := henters
  have he : i.effect = .call := by rw [Instruction.effect, hcall]; rfl
  obtain ⟨hlegal, -⟩ := hs.ready hi
  have hstepped : Stepped program _ i m (m.step program limits) :=
    Machine.step_stepped hi hlegal (h.ready hs hi fun hmake => by
      rw [he] at hmake
      cases hmake)
  rw [hstep] at hstepped
  cases hstepped with
  | running hm =>
    obtain ⟨-, hcalls | ⟨g, args, hg, hval', -⟩⟩ := hm.2.of_call he
    · rw [hcalls] at hdepth
      exact absurd hdepth (Nat.lt_irrefl _)
    · cases hval.symm.trans hval'
      exact hg

/-- A variable whose frame is there and large enough stands for a slot of it. -/
theorem Machine.addresses {o : Operand} {depth : Nat} {id : FrameId} (hd : o.depth? = some depth)
    (hid : m.active.frames.at? depth = some id) (hpos : 0 ≤ o.address)
    (hlt : o.address < (m.heap.frame id).size) : m.Addresses program o id := by
  have hfetch : Action.fetch program o = Action.readSlot depth o.address := by
    obtain ⟨mode, address⟩ := o
    cases mode <;> cases hd <;> rfl
  have hstore : ∀ limits v, Action.store program limits o v =
      Action.writeSlot depth o.address v := by
    obtain ⟨mode, address⟩ := o
    cases mode <;> cases hd <;> exact fun _ _ => rfl
  constructor
  case nonneg => exact hpos
  case there => omega
  case reads =>
    intro v hv
    rw [hfetch]
    refine Action.readSlot_exact (Option.bind_eq_some_iff.2 ⟨id, hid, ?_⟩)
    rw [Action.at?, if_pos hpos, hv]
  case writes =>
    intro limits v
    rw [hstore]
    have hframe : Action.frameAt depth m = .ok id m := by
      rw [Action.frameAt, Action.get_bind, hid]
      rfl
    show EStateM.bind (Action.frameAt depth) _ m = _
    unfold EStateM.bind
    rw [hframe]
    dsimp only
    rw [Action.get_bind, if_pos ⟨hpos, hlt⟩]
    rfl

/-- A run goes on from a machine that a statement comes to. -/
theorem Session.Visits.trans {k : Nat} (hv : s.Visits node program m)
    (hrun : Machine.run program s.limits k m = .running m') : s.Visits node program m' := by
  obtain ⟨start, n, hst, hstart⟩ := hv
  refine ⟨start, n + k, hst, ?_⟩
  rw [Machine.run_add, hstart]
  exact hrun

/-- A call is followed along a run. -/
theorem Machine.Calls.run {limits : Limits} {seat : Seat}
    (h : m.Calls program limits f m' seat) :
    ∃ n, Machine.run program limits n m = .running m' := by
  obtain ⟨m₁, n, ⟨i, -, -, -, hstep, -⟩, hlives⟩ := h
  refine ⟨n + 1, ?_⟩
  rw [Machine.run_succ, hstep]
  exact Machine.run_of_follow hlives

/-- A frame belongs to one call of a statement only. -/
theorem Session.Reached.enters_unique {g : Func} {m₁ m₁' : Machine} (hs : s.Reached)
    (hv : s.Visits node program m) (hv' : s.Visits node program m')
    (he : m.Enters program s.limits f m₁) (he' : m'.Enters program s.limits g m₁')
    (hheap : m.heap.size = m'.heap.size) : f = g := by
  obtain ⟨start, n, hst, hrun⟩ := hv
  obtain ⟨start', k, hst', hrun'⟩ := hv'
  cases hst.symm.trans hst'
  exact he.unique (hs.visits ⟨start, 0, hst, rfl⟩) hrun hrun' he' hheap

/-- Well-scoped code that serves an activation stands on the frames of that activation. -/
theorem Session.Scoped.runsOn (hs : s.Scoped past) (hnode : node.Scoped [])
    (ha : s.Activates node program m f m') : m'.RunsOn program m.heap.size f := by
  obtain ⟨hv, seat, hcalls, hserves⟩ := ha
  obtain ⟨k, hrun⟩ := hcalls.run
  have hv' := hv.trans hrun
  have hl := hs.recalls.visits hs.reached hnode hv'
  obtain ⟨halike, -, hsize⟩ := hcalls.alike (hs.reached.visits hv) hl.sharing hserves
  obtain ⟨y, hy, hsuits⟩ := hl.active.placed.here
  have hown := halike.own.trans (f.own_frames _ _)
  constructor
  case own => exact hown
  case size => exact hsize
  case outer => exact fun captured hc => halike.outer.trans (f.outer_frames _ _ hc)
  case ownSlots =>
    intro i hi o ho hmode
    have hd : o.depth? = some 0 := by rw [Operand.depth?, hmode]
    obtain ⟨n, hn, hpos, hlt⟩ := (hy.at_outside hi).1 o ho 0 hd
    obtain ⟨id, hid, -, rfl⟩ := hsuits.own n hn
    cases hown.symm.trans hid
    exact Machine.addresses hd hown hpos hlt
  case outerSlots =>
    intro i hi o ho hmode
    have hd : o.depth? = some 1 := by rw [Operand.depth?, hmode]
    obtain ⟨n, hn, hpos, hlt⟩ := (hy.at_outside hi).1 o ho 1 hd
    obtain ⟨captured, hid, -, rfl⟩ := hsuits.outer n hn
    obtain ⟨g, ⟨m₂, m₃, hv₂, hheap, henters₂⟩, hbound⟩ := hsuits.bound _ hown
    -- the frame belongs to the call of `f` alone
    obtain ⟨m₁, -, henters, -⟩ := hcalls
    obtain rfl : g = f := hs.reached.enters_unique hv₂ hv henters₂ henters hheap
    exact ⟨captured, (hbound _ hn).symm.trans hid, Machine.addresses hd hid hpos hlt⟩

/-- In a session that evaluates well-scoped statements only, no frame and no slot is missing.
Whatever is done for an activation, in its own context or in a producer of one of its loops,
is done on the new frame of its call and on the frame that its function captured; and that
one is the frame of the activation for which the function was made. -/
theorem Session.Scoped.lexical (hs : s.Scoped past) (hnode : node.Scoped []) :
    (∀ fuel fault s', s.eval fuel node = some (.error (.runtime fault), s') →
      ¬ fault.cause.OutOfScope) ∧
    ∀ program m f m', s.Activates node program m f m' →
      m'.RunsOn program m.heap.size f ∧ f.Made ((s, node) :: past) := by
  refine ⟨fun fuel fault s' he => (hs.recalls.eval hs.reached hnode he).2 fault rfl,
    fun program m f m' ha => ⟨hs.runsOn hnode ha, ?_⟩⟩
  obtain ⟨hv, -, ⟨m₁, -, henters, -⟩, -⟩ := ha
  have hl := hs.recalls.visits hs.reached hnode hv
  exact (hl.entered (hs.reached.visits hv) henters).made

/-- A function makes and calls another one, which returns a slot of its maker. -/
def Node.closure : Node :=
  .call (.function 0 1 (.call (.function 0 0 (.ref (.outer 0))) [])) []

/-- The program and the machine that it starts with in a fresh session. -/
def Session.closure : Program × Machine :=
  ((Session.fresh {} default default).start? .closure).get!

/-- The machine after `n` steps of it. -/
def Machine.closure (n : Nat) : Machine :=
  (Machine.run Session.closure.1 {} n Session.closure.2).machine

/-- The sixth step calls the inner function, which captured the first frame. -/
theorem Session.lexical_closure :
    (Session.fresh {} default default).Scoped [] ∧ Node.closure.Scoped [] ∧
      ∃ program m m', (Session.fresh {} default default).Activates .closure program m
        ⟨2, 0, 0, some 0⟩ m' ∧ m'.RunsOn program m.heap.size ⟨2, 0, 0, some 0⟩ ∧
        Func.Made [(.fresh {} default default, .closure)] ⟨2, 0, 0, some 0⟩ := by
  have hs := Session.Scoped.fresh {} default default
  have hnode : Node.closure.Scoped [] := by
    simp [Node.closure, Node.Scoped, Node.ScopedAll, Ref.Scoped]
  have hrun : Machine.run Session.closure.1 {} 5 Session.closure.2 = .running (Machine.closure 5) :=
    Step.eq_running (by decide +kernel)
  have hstep : (Machine.closure 5).step Session.closure.1 {} = .running (Machine.closure 6) :=
    Machine.run_one.symm.trans (Machine.run_machine (by decide +kernel))
  have hv : (Session.fresh {} default default).Visits .closure Session.closure.1
      (Machine.closure 5) :=
    ⟨_, 5, (Option.some_get! _ (by decide +kernel)).symm, hrun⟩
  have hi : Session.closure.1.instruction? (Machine.closure 5).active.ip = some _ :=
    (Option.some_get! _ (by decide +kernel)).symm
  have hserves : (Machine.closure 6).Serves (Machine.closure 5).front
      ((Machine.closure 5).active.calls.size + 1) :=
    Machine.serves_iff.2 (by decide +kernel)
  have ha : (Session.fresh {} default default).Activates .closure Session.closure.1
      (Machine.closure 5) ⟨2, 0, 0, some 0⟩ (Machine.closure 6) :=
    ⟨hv, _, ⟨_, 0, ⟨_, hi, by decide +kernel, rfl, hstep, by decide +kernel⟩, rfl⟩, hserves⟩
  exact ⟨hs, hnode, _, _, _, ha, (hs.lexical hnode).2 _ _ _ _ ha⟩

end

end YieldMachine
