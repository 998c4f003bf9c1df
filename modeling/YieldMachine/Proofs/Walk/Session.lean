import YieldMachine.Proofs.Flow.Session
import YieldMachine.Proofs.Walk.Found

/-!
# Sessions follow the walk

Statements without producers are evaluated next to the walk, from a session that has
evaluated nothing. As long as both have come to the end of every statement, evaluating the
next one does what the walk through it does: it gives the same value, and leaves the same
globals, frames and console; it exits where the walk exits. What the session has and the walk
has not are limits: it may fail for an overflow, but only if its limits are below a bound that
does not depend on them.

    Session.eval_walk              the session follows the walk
    Session.Abreast.bodies_found   the walk finds the body of each function
-/

namespace YieldMachine

open Walk

/-! ## Statements in a program -/

/-- The code of a statement reaches from its entry to the end of the program, and leaves its
value on the stack. -/
def Program.Lays (program : Program) (entry : Nat) (node : Node) (e : Entries) : Prop :=
  ∃ r stop, Stands program .stack entry node e r stop ∧
    program.Carries r .stack stop program.code.size

/-- A statement compiles onto the end of the program of a session. -/
def Session.Compiles (s : Session) (node : Node) (entry : Nat) (program : Program) : Prop :=
  ∃ journal, s.program.compile s.machine.journal node = ⟨.ok entry, program, journal⟩

/-! ## Sessions next to walks -/

/-- The session and the walk have come to the end of every statement so far. -/
inductive Session.Abreast : Session → Bodies → World → Prop
  | fresh (limits : Limits) (console : Console) (journal : Journal) :
      Abreast (.fresh limits console journal) .empty (Walk.fresh console)
  | eval {s s' : Session} {bodies : Bodies} {w w' : World} {node : Node} {e : Entries}
      {entry : Nat} {program : Program} {fuel steps : Nat} {v v' : Value} :
      s.Abreast bodies w → node.Walkable → s.Compiles node entry program →
      program.Lays entry node e → statement bodies fuel e node w = .ok v w' →
      s.eval steps node = some (.ok v', s') → s'.Abreast (bodies.add (node.functions e)) w'

/-- Evaluating a statement gives a value and an exit code and leaves a world, unless the limits
of the session are below the bound. -/
def Session.Gives (s : Session) (node : Node) (bound : Nat) (v : Value) (code : Option Int64)
    (w : World) : Prop :=
  ∃ steps result s', s.eval steps node = some (result, s') ∧
    (result = .ok v ∧ s'.exitCode = code ∧ s'.machine.world = w ∨
      ∃ fault, result = .error (.runtime fault) ∧ fault.Overflows s.limits bound)

/-- Evaluating a statement does what a walk did. -/
def Session.Follows (s : Session) (node : Node) (bound : Nat) :
    EStateM.Result Stop World Value → Prop
  | .ok v w => s.Gives node bound v none w
  | .error (.exited status) w => s.Gives node bound (.int status) (some status) w
  | .error .lost _ => False
  | .error (.returned _) _ | .error .fatal _ | .error .spent _ => True

section

variable {program : Program} {bodies : Bodies} {w : World} {node : Node} {e : Entries}
  {entry : Nat} {s : Session}

/-! ## Runs of statements -/

theorem Program.Gained.lays {p q : Program} {code : List Instruction} {r : Operand}
    (h : p.Gained q node code r) (hn : node.Walkable) : ∃ e, q.Lays p.code.size node e := by
  have hspan : q.Spans p.code.size (pushed code r) q.code.size := ⟨h.holds, h.size⟩
  obtain ⟨mid, hcode, hcarry⟩ := hspan.pushed
  obtain ⟨e, he⟩ := Code.stands node h.lowered hcode hn
  exact ⟨e, r, mid, he, hcarry⟩

theorem Program.Lays.places (h : program.Lays entry node e) :
    program.Places entry program.code.size (node.functions e) := by
  obtain ⟨r, stop, hs, hc⟩ := h
  exact (Stands.places node hs).widen (Nat.le_refl _) hc.le

/-- A run from the entry of a statement performs the walk through it. -/
theorem Program.Lays.performs (h : program.Lays entry node e)
    (hk : program.Knows (bodies.add (node.functions e))) (fuel : Nat) :
    Performs program #[] (.start entry #[]) (.start entry #[]) (statement bodies fuel e node) w
      (Delivers program (.start entry #[]) program.code.size .stack) := by
  obtain ⟨r, stop, hs, hc⟩ := h
  exact ((Stands.does hk fuel (.refl program) hs).carried hc).start rfl ⟨rfl, nofun⟩

/-- At the end of the code the value on top of the stack is given. -/
theorem Context.Leads.finish (c : Context) (v : Value) :
    (c.plus program.code.size #[v]).Leads program #[] w fun st =>
      ∃ m, st = .finished v m ∧ m.world = w := by
  refine ⟨0, fun limits m hm => ⟨1, .inl ⟨m, ?_, hm.world⟩⟩⟩
  have hip : m.active.ip = program.code.size := by
    rw [hm.active]
    rfl
  have hback : m.active.stack.back? = some v := by
    rw [hm.active]
    exact (congrArg Array.back? Array.append_singleton).trans Array.back?_push
  rw [Machine.run_one, Machine.step]
  dsimp only
  rw [hip, Array.getElem?_eq_none (Nat.le_refl _)]
  dsimp only
  rw [Machine.finish, hm.consumers, hback]
  rfl

theorem Session.Compiles.start (h : s.Compiles node entry program) (hexit : s.exitCode = none) :
    ∃ m, s.start? node = some (program, m) ∧ m.At (.start entry #[]) #[] s.machine.world := by
  obtain ⟨journal, hcompile⟩ := h
  refine ⟨Machine.restart { s.machine with
    journal := journal.record (.evaluating entry program.code.size) } entry, ?_, rfl, rfl, rfl⟩
  unfold Session.start?
  rw [hexit, hcompile]

theorem Session.exists_compiles
    (h : (s.program.compile s.machine.journal node).entry.toOption = some entry) :
    ∃ program, s.Compiles node entry program := by
  cases hc : s.program.compile s.machine.journal node with
  | mk result program journal =>
    rw [hc] at h
    cases result with
    | ok place =>
      cases h
      exact ⟨program, journal, hc⟩
    | error e => cases h

theorem Session.Compiles.gained (h : s.Compiles node entry program) :
    entry = s.program.code.size ∧ ∃ code r, s.program.Gained program node code r := by
  obtain ⟨journal, hcompile⟩ := h
  exact Program.compile_ok hcompile

/-- Evaluation comes to the same end with any fuel that suffices. -/
theorem Session.eval_unique {m : Machine} {n k : Nat} {x y : Except SessionError Value × Session}
    (hs : s.start? node = some (program, m)) (hx : s.eval n node = some x)
    (hy : s.eval k node = some y) : x = y := by
  have hmore : ∀ {n : Nat} {x : Except SessionError Value × Session} (more : Nat),
      s.eval n node = some x → s.eval (n + more) node = some x := by
    intro n x more hx
    rw [Session.eval_of_start hs] at hx ⊢
    rwa [Machine.run_add_of_isEnd]
    cases hrun : Machine.run program s.limits n m with
    | running m' =>
      rw [hrun] at hx
      cases hx
    | finished v m' | exited status m' | faulted fault m' => rfl
  have hx' := hmore k hx
  have hy' := hmore n hy
  rw [Nat.add_comm, hx'] at hy'
  exact Option.some.inj hy'

theorem Session.program_of_eval {m : Machine} {n : Nat} {v : Value} {s' : Session}
    (hs : s.start? node = some (program, m)) (h : s.eval n node = some (.ok v, s')) :
    s'.program = program := by
  rw [Session.eval_of_start hs] at h
  cases hrun : Machine.run program s.limits n m with
  | running m' | finished v m' | exited status m' | faulted fault m' =>
    rw [hrun] at h
    cases h
    try rfl

/-! ## One statement -/

/-- What a session and a walk share that have come to the end of the same statements. -/
structure Session.Level (s : Session) (bodies : Bodies) (w : World) : Prop where
  running : s.exitCode = none
  world : s.machine.world = w
  knows : s.program.Knows bodies
  closed : bodies.Closed
  memory : w.Memory bodies.Has

/-- The walk through a statement keeps to functions whose bodies are known. -/
theorem Walk.statement_stays (hclosed : bodies.Closed) (hw : w.Memory bodies.Has) (fuel : Nat)
    (e : Entries) (node : Node) :
    match statement bodies fuel e node w with
    | .ok _ w' => w'.Memory (bodies.add (node.functions e)).Has
    | .error s _ => s ≠ .lost := by
  have hstays := eval_stays (hclosed.add (Node.functions_nested node e)) fuel ⟨none, none⟩ e node
    (bodies.covers_add _) w (hw.mono fun _ => Bodies.Has.add)
  unfold statement
  split at hstays
  · next heq =>
    rw [heq]
    exact hstays.1
  · next heq =>
    rw [heq]
    rintro rfl
    exact hstays.2

/-- Runs that end alike under any limits give the same, unless the limits are below a bound. -/
theorem Session.gives_of_leads {Q : Step → Prop} {v : Value} {code : Option Int64} {w' : World}
    (h : (Context.start entry #[]).Leads program #[] w Q)
    (hq : ∀ limits st, Q st → ∃ s, Session.ended program limits st = some (.ok v, s) ∧
      s.exitCode = code ∧ s.machine.world = w') :
    ∃ bound, ∀ s : Session, s.Level bodies w → s.Compiles node entry program →
      s.Gives node bound v code w' := by
  obtain ⟨bound, hleads⟩ := h
  refine ⟨bound, fun s hs hcompiles => ?_⟩
  obtain ⟨m, hstart, hat⟩ := hcompiles.start hs.running
  obtain ⟨n, hn⟩ := hleads s.limits m (hs.world ▸ hat)
  have heval := Session.eval_of_start hstart n
  rcases hn with hn | ⟨fault, m', hrun, hf⟩
  · obtain ⟨s', hended, hs'⟩ := hq s.limits _ hn
    exact ⟨n, _, s', heval.trans hended, .inl ⟨rfl, hs'⟩⟩
  · rw [hrun] at heval
    exact ⟨n, _, _, heval, .inr ⟨fault, rfl, hf⟩⟩

/-- A session that is level with a walk follows it through the next statement. -/
theorem Session.follows_of_level (bodies : Bodies) (w : World) (hl : program.Lays entry node e)
    (fuel : Nat) :
    ∃ bound, ∀ s : Session, s.Level bodies w → s.Compiles node entry program →
      s.Follows node bound (statement bodies fuel e node w) := by
  by_cases hk : program.Knows (bodies.add (node.functions e))
  · have hrun : Performs .. := hl.performs hk fuel (w := w)
    unfold Performs at hrun
    cases hx : statement bodies fuel e node w with
    | ok v w' =>
      rw [hx] at hrun
      obtain ⟨c, hc, rfl, -⟩ := hrun
      refine Session.gives_of_leads (hc.trans (.finish _ v)) fun limits st ⟨m, hst, hw⟩ => ?_
      rw [hst]
      exact ⟨_, rfl, rfl, hw⟩
    | error stop w' =>
      rw [hx] at hrun
      cases stop with
      | exited status =>
        have hexit : (Context.start entry #[]).Leads program #[] w fun st =>
            ∃ m, st = .exited status m ∧ m.world = w' := hrun
        refine Session.gives_of_leads hexit fun limits st ⟨m, hst, hw⟩ => ?_
        rw [hst]
        exact ⟨_, rfl, rfl, hw⟩
      | lost =>
        refine ⟨0, fun s hs _ => ?_⟩
        have hstays := statement_stays hs.closed hs.memory fuel e node
        rw [hx] at hstays
        exact hstays rfl
      | returned v | fatal | spent => exact ⟨0, fun _ _ _ => trivial⟩
  · refine ⟨0, fun s hs hcompiles => absurd ?_ hk⟩
    obtain ⟨-, code, r, hgained⟩ := hcompiles.gained
    exact hs.knows.add hgained.within hl.places

/-! ## Statements in a row -/

theorem Session.Abreast.level (h : s.Abreast bodies w) : s.Level bodies w := by
  induction h with
  | fresh limits console journal =>
    have hm := Machine.Memory.fresh Bodies.empty.Has console journal
    exact ⟨rfl, rfl, nofun, nofun, hm.globals, hm.heap⟩
  | @eval s s' bodies w w' node e entry program fuel steps v v' _ hn hcompiles hl hx he ih =>
    obtain ⟨m, hstart, -⟩ := hcompiles.start ih.running
    obtain ⟨bound, hfollows⟩ := Session.follows_of_level bodies w hl fuel
    have hgives := hfollows s ih hcompiles
    rw [hx] at hgives
    obtain ⟨n, result, s'', he', hend⟩ := hgives
    cases Session.eval_unique hstart he he'
    obtain ⟨hv, hexit, hworld⟩ | ⟨fault, hfault, -⟩ := hend
    · obtain ⟨-, code, r, hgained⟩ := hcompiles.gained
      have hstays := statement_stays ih.closed ih.memory fuel e node
      rw [hx] at hstays
      refine ⟨hexit, hworld, ?_, ih.closed.add (Node.functions_nested node e), hstays⟩
      rw [Session.program_of_eval hstart he]
      exact ih.knows.add hgained.within hl.places
    · cases hfault

/-- Evaluating a statement does what the walk through it does, with the entries that the
compiler chose, as long as session and walk have come to the end of every statement before. -/
theorem Session.eval_walk (hn : node.Walkable) (bodies : Bodies) (w : World) (entry : Nat)
    (program : Program) :
    (∀ s : Session, s.Compiles node entry program → ∃ e, program.Lays entry node e) ∧
      ∀ e, program.Lays entry node e → ∀ fuel, ∃ bound, ∀ s : Session, s.Abreast bodies w →
        s.Compiles node entry program →
          s.Follows node bound (statement bodies fuel e node w) := by
  refine ⟨fun s hs => ?_, fun e hl fuel => ?_⟩
  · obtain ⟨rfl, code, r, hgained⟩ := hs.gained
    exact hgained.lays hn
  · obtain ⟨bound, h⟩ := Session.follows_of_level bodies w hl fuel
    exact ⟨bound, fun s hs => h s hs.level⟩

/-- A function that sets its parameter and gives it, called with nil. -/
def Node.resetting : Node :=
  .call (.function 1 1 (.block [.assign (.own 0) (.array []), .ref (.own 0)])) [.block []]

theorem Session.eval_walk_resetting :
    ∃ program e bound, Node.resetting.Walkable ∧
      (Session.fresh {} default default).Compiles .resetting 0 program ∧
      program.Lays 0 .resetting e ∧
      statement .empty 5 e .resetting (Walk.fresh default) =
        .ok (.array #[]) { Walk.fresh default with heap := #[#[.array #[]]] } ∧
      (Session.fresh {} default default).Gives .resetting bound (.array #[]) none
        { Walk.fresh default with heap := #[#[.array #[]]] } := by
  have hassign : (Node.assign (.own 0) (.array [])).Walkable :=
    Node.walkable_iff.2 ⟨trivial, by simpa [Node.children] using .leaf trivial rfl⟩
  have hbody : (Node.block [.assign (.own 0) (.array []), .ref (.own 0)]).Walkable :=
    Node.walkable_iff.2 ⟨trivial, by
      simpa [Node.children] using ⟨hassign, .leaf trivial rfl⟩⟩
  have hfunction : (Node.function 1 1 (.block [.assign (.own 0) (.array []),
      .ref (.own 0)])).Walkable :=
    Node.walkable_iff.2 ⟨⟨by decide, by decide⟩, by simpa [Node.children] using hbody⟩
  have hwalk : Node.resetting.Walkable := Node.walkable_iff.2 ⟨trivial, by
    simpa [Node.resetting, Node.children] using ⟨hfunction, .leaf trivial rfl⟩⟩
  obtain ⟨program, hcompiles⟩ : ∃ program,
      (Session.fresh {} default default).Compiles .resetting 0 program :=
    Session.exists_compiles (by decide +kernel)
  obtain ⟨hlays, heval⟩ := Session.eval_walk hwalk .empty (Walk.fresh default) 0 program
  obtain ⟨e, he⟩ := hlays _ hcompiles
  obtain ⟨bound, hfollows⟩ := heval e he 5
  have hlookup : Bodies.add .empty (Node.resetting.functions e) (e [0]) =
      some ⟨.block [.assign (.own 0) (.array []), .ref (.own 0)], (e.under 0).under 0⟩ := by
    simp [Node.resetting, Bodies.add, Node.functions, Node.functionsOf, Entries.under]
  have hresult : statement .empty 5 e .resetting (Walk.fresh default) =
      .ok (.array #[]) { Walk.fresh default with heap := #[#[.array #[]]] } := by
    unfold statement
    generalize Bodies.add .empty (Node.resetting.functions e) = bodies at hlookup
    show untilReturn (enter bodies _ ⟨e [0], 1, 1, none⟩ [.nil]) (Walk.fresh default) = _
    rw [untilReturn_apply, enter_apply hlookup]
    rfl
  have hgives := hfollows _ (.fresh {} default default) hcompiles
  rw [hresult] at hgives
  exact ⟨program, e, bound, hwalk, hcompiles, he, hresult, hgives⟩

/-- Two arrays in an array. -/
def Node.pair : Node :=
  .array [.array [], .array []]

/-- A session that has room for one value on its stack. -/
def Session.crowded : Session :=
  .fresh { maxStack := 1 } default default

/-- The walk has no limits, so it comes to the end of a statement that overflows a session. -/
theorem Session.crowded_overflows :
    Session.crowded.Abreast .empty (Walk.fresh default) ∧ Node.pair.Walkable ∧
      ∃ program e, Session.crowded.Compiles .pair 0 program ∧ program.Lays 0 .pair e ∧
        statement .empty 3 e .pair (Walk.fresh default) =
          .ok (.array #[.array #[], .array #[]]) (Walk.fresh default) ∧
        ∀ steps v s, Session.crowded.eval steps .pair ≠ some (.ok v, s) := by
  have hwalk : Node.pair.Walkable :=
    Node.walkable_iff.2 ⟨trivial, by simpa [Node.pair, Node.children] using .leaf trivial rfl⟩
  obtain ⟨program, hcompiles⟩ : ∃ program, Session.crowded.Compiles .pair 0 program :=
    Session.exists_compiles (by decide +kernel)
  obtain ⟨-, code, r, hgained⟩ := hcompiles.gained
  obtain ⟨e, he⟩ := hgained.lays hwalk
  refine ⟨.fresh _ _ _, hwalk, program, e, hcompiles, he, rfl, fun steps v s h => ?_⟩
  have hfails : (Session.crowded.eval 3 .pair).map (fun x => x.1.toOption.isSome) =
      some false := by decide +kernel
  obtain ⟨m, hstart, -⟩ := hcompiles.start rfl
  obtain ⟨x, hx, hnone⟩ := Option.map_eq_some_iff.1 hfails
  rw [Session.eval_unique hstart hx h] at hnone
  cases hnone

/-- The walk finds the body of each function, whether of this statement or of one before. -/
theorem Session.Abreast.bodies_found (h : s.Abreast bodies w)
    (hc : s.Compiles node entry program) (hl : program.Lays entry node e) :
    (∀ f ∈ node.functions e, bodies.add (node.functions e) f.1 = some f.2) ∧
      ∀ place body, bodies place = some body →
        bodies.add (node.functions e) place = some body := by
  refine ⟨fun f hf => Bodies.add_eq hl.places hf, fun place body hbody => ?_⟩
  obtain ⟨p, hp, r, stop, hstands, hret⟩ := h.level.knows place body hbody
  have hle := (Stands.places _ hstands).le
  have hlt := Program.instruction?_lt hret
  have hsize := hp.size_le
  obtain ⟨rfl, -⟩ := hc.gained
  rw [Bodies.add_of_le hl.places (by omega), hbody]

end

end YieldMachine
