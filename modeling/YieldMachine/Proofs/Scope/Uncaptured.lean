import YieldMachine.Proofs.Scope.Session

/-!
# Functions without a captured frame

A call puts the frame that its function captured behind the new one, and only where there
is one. A function that captured none was made where no frame is, in a statement and
outside of all calls. When such a function is called from there, its body has no second
frame, and a variable of its maker is missing. But when it is called from another
function, the frame that its body finds behind its own is that of the caller.

    Session.Reached.uncaptured
-/

namespace YieldMachine

/-! ## Definitions -/

/-- Reading and writing an operand fails alike, and changes nothing. -/
def Machine.Refuses (program : Program) (m : Machine) (o : Operand) (cause : Cause) : Prop :=
  Action.fetch program o m = .error cause m ∧
    ∀ limits v, Action.store program limits o v m = .error cause m

/-! ## Frames -/

variable {program : Program} {m m' : Machine} {o : Operand} {s : Session} {node : Node} {f : Func}

/-- Without a captured frame, what is behind the frame of a call is the frame of the caller. -/
theorem Func.caller_frames {frames : Chain} {id : FrameId} (h : f.captured = none) :
    (f.frames frames id).at? 1 = frames.at? 0 := by
  unfold Func.frames Chain.at?
  rw [h]
  simp only [Array.size_push]
  by_cases hempty : frames.size = 0
  · rw [if_neg (by omega), if_neg (by omega)]
  · rw [if_pos (by omega), if_pos (by omega), Array.getElem?_push, if_neg (by omega)]
    rfl

theorem Action.frameAt_eq (depth : Nat) (m : Machine) :
    Action.frameAt depth m = match m.active.frames.at? depth with
      | some id => .ok id m
      | none => .error .frameUnderflow m := by
  rw [Action.frameAt, Action.get_bind]
  cases m.active.frames.at? depth <;> rfl

/-- A slot of a frame that is not there is missing. -/
theorem Machine.refuses_of_no_frame (ho : o.mode = .closure) (h : m.active.frames.at? 1 = none) :
    m.Refuses program o .frameUnderflow := by
  have hframe := Action.frameAt_eq 1 m
  rw [h] at hframe
  obtain ⟨mode, address⟩ := o
  cases ho
  constructor
  · show EStateM.bind (Action.frameAt 1) _ m = _
    unfold EStateM.bind
    rw [hframe]
  · intro limits v
    show EStateM.bind (Action.frameAt 1) _ m = _
    unfold EStateM.bind
    rw [hframe]

/-- So is a slot that a frame does not have. -/
theorem Machine.refuses_of_no_slot {id : FrameId} (ho : o.mode = .closure)
    (h : m.active.frames.at? 1 = some id)
    (hslot : ¬ (0 ≤ o.address ∧ o.address < (m.heap.frame id).size)) :
    m.Refuses program o (.slotOutOfRange o.address (m.heap.frame id).size) := by
  have hframe := Action.frameAt_eq 1 m
  rw [h] at hframe
  obtain ⟨mode, address⟩ := o
  cases ho
  constructor
  · show EStateM.bind (Action.frameAt 1) _ m = _
    unfold EStateM.bind
    rw [hframe]
    dsimp only at hslot ⊢
    rw [Action.get_bind]
    have hnone : Action.at? (m.heap.frame id) address = none := by
      unfold Action.at?
      split
      · next hpos => exact Array.getElem?_eq_none (by omega)
      · rfl
    rw [hnone]
    rfl
  · intro limits v
    show EStateM.bind (Action.frameAt 1) _ m = _
    unfold EStateM.bind
    rw [hframe]
    dsimp only
    rw [Action.get_bind, if_neg hslot]
    rfl

/-! ## Activations -/

/-- What a body without a captured frame reaches as a slot of its maker, in its own context or in
a producer of one of its loops. Called while no other function runs, it reaches nothing: the
frame is missing. Called for an activation of another function, it reaches the slots of the frame
of that activation, and no others. -/
theorem Session.Reached.uncaptured (hs : s.Reached) (ha : s.Activates node program m f m')
    (hf : f.captured = none) (ho : o.mode = .closure) :
    m'.active.frames.at? 0 = some m.heap.size ∧
    ((∀ c ∈ m.chain, c.calls.size = 0) → m'.Refuses program o .frameUnderflow) ∧
    ((∃ c ∈ m.chain, c.calls.size ≠ 0) → ∃ m₀ g, s.Activates node program m₀ g m ∧
      m₀.heap.size < m.heap.size ∧
      if 0 ≤ o.address ∧ o.address < (m'.heap.frame m₀.heap.size).size then
        m'.Addresses program o m₀.heap.size
      else m'.Refuses program o (.slotOutOfRange o.address (m'.heap.frame m₀.heap.size).size)) := by
  obtain ⟨hv, seat, hcalls, hserves⟩ := ha
  obtain ⟨k, hrun⟩ := hcalls.run
  obtain ⟨halike, -⟩ := hcalls.alike (hs.visits hv) (hs.sharing (hv.trans hrun)) hserves
  have houter := halike.outer.trans (Func.caller_frames hf)
  refine ⟨halike.own.trans (f.own_frames _ _), fun hnone => ?_, fun hsome => ?_⟩
  · rw [(hs.sharing hv).unframed (hs.grounded hv) hnone] at houter
    exact Machine.refuses_of_no_frame ho houter
  · obtain ⟨caller, depth, hserved⟩ := Machine.serves_of_calls hsome
    obtain ⟨m₀, g, hactivates, hown⟩ := hs.activated hv hserved
    rw [hown] at houter
    obtain ⟨hv₀, seat₀, hcalls₀, hserves₀⟩ := hactivates
    obtain ⟨-, hlt, -⟩ := hcalls₀.alike (hs.visits hv₀) (hs.sharing hv) hserves₀
    refine ⟨m₀, g, ⟨hv₀, seat₀, hcalls₀, hserves₀⟩, hlt, ?_⟩
    split
    · next hslot =>
      have hd : o.depth? = some 1 := by rw [Operand.depth?, ho]
      exact Machine.addresses hd houter hslot.1 hslot.2
    · next hslot => exact Machine.refuses_of_no_slot ho houter hslot

/-- A function with two parameters, the first of which it calls. It is given a function of the
statement, which returns the second slot of its maker. -/
def Node.handover : Node :=
  .call (.function 2 2 (.call (.ref (.own 0)) []))
    [.function 0 0 (.ref (.outer 1)), .literal .nil]

/-- The program and the machine that it starts with in a fresh session. -/
def Session.handover : Program × Machine :=
  ((Session.fresh {} default default).start? .handover).get!

/-- The machine after `n` steps of it. -/
def Machine.handover (n : Nat) : Machine :=
  (Machine.run Session.handover.1 {} n Session.handover.2).machine

/-- The function that a value is. -/
def Value.function? : Value → Option Func
  | .function f => some f
  | _ => none

theorem Value.function?_eq_some {v : Value} : v.function? = some f ↔ v = .function f := by
  cases v <;> simp [Value.function?]

/-- The seventh step calls the function of the statement, whose maker has no frame. Its body reads
and writes the second slot of the function that calls it. -/
theorem Session.uncaptured_handover :
    (Session.fresh {} default default).Reached ∧
      (Session.fresh {} default default).Activates .handover Session.handover.1
        (Machine.handover 6) ⟨1, 0, 0, none⟩ (Machine.handover 7) ∧
      ∃ m₀ g, (Session.fresh {} default default).Activates .handover Session.handover.1 m₀ g
        (Machine.handover 6) ∧ m₀.heap.size < (Machine.handover 6).heap.size ∧
        (Machine.handover 7).Addresses Session.handover.1 ⟨.closure, 1⟩ m₀.heap.size := by
  have hs := Session.Reached.fresh {} default default
  have hrun : Machine.run Session.handover.1 {} 6 Session.handover.2 =
      .running (Machine.handover 6) := Step.eq_running (by decide +kernel)
  have hstep : (Machine.handover 6).step Session.handover.1 {} = .running (Machine.handover 7) :=
    Machine.run_one.symm.trans (Machine.run_machine (by decide +kernel))
  have hv : (Session.fresh {} default default).Visits .handover Session.handover.1
      (Machine.handover 6) := ⟨_, 6, (Option.some_get! _ (by decide +kernel)).symm, hrun⟩
  have hi : Session.handover.1.instruction? (Machine.handover 6).active.ip =
      some ⟨.call, ⟨.immediate, 0⟩, ⟨.frame, 0⟩, .unused⟩ := by decide +kernel
  have hcallee : (Machine.handover 6).value? Session.handover.1 ⟨.frame, 0⟩ =
      some (.function ⟨1, 0, 0, none⟩) := by
    have hfunction : ((Machine.handover 6).value? Session.handover.1 ⟨.frame, 0⟩).bind
        Value.function? = some ⟨1, 0, 0, none⟩ := by decide +kernel
    obtain ⟨v, hv, hv'⟩ := Option.bind_eq_some_iff.1 hfunction
    rw [hv, Value.function?_eq_some.1 hv']
  have hserves : (Machine.handover 7).Serves (Machine.handover 6).front
      ((Machine.handover 6).active.calls.size + 1) := Machine.serves_iff.2 (by decide +kernel)
  have ha : (Session.fresh {} default default).Activates .handover Session.handover.1
      (Machine.handover 6) ⟨1, 0, 0, none⟩ (Machine.handover 7) :=
    ⟨hv, _, ⟨_, 0, ⟨_, hi, rfl, hcallee, hstep, by decide +kernel⟩, rfl⟩, hserves⟩
  have hcaller : ∃ c ∈ (Machine.handover 6).chain, c.calls.size ≠ 0 :=
    ⟨_, List.mem_cons_self, by decide +kernel⟩
  have hmode : (⟨.closure, 1⟩ : Operand).mode = .closure := rfl
  obtain ⟨-, -, hreaches⟩ := hs.uncaptured ha rfl hmode
  obtain ⟨m₀, g, hactivates, hlt, hslot⟩ := hreaches hcaller
  have hone : (Machine.handover 6).heap.size = 1 := by decide +kernel
  have hzero : m₀.heap.size = 0 := by omega
  rw [hzero, if_pos (by decide +kernel), ← hzero] at hslot
  exact ⟨hs, ha, m₀, g, hactivates, hlt, hslot⟩

end YieldMachine
