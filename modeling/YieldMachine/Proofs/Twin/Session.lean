import YieldMachine.Proofs.Flow.Session
import YieldMachine.Proofs.Twin.Pools
import YieldMachine.Proofs.Twin.Run

/-!
# What a refused statement leaves behind

A statement that does not compile leaves no code, but the constants that it added before
the failure stay in the pool, where they take numbers that later statements lack. Until a
later statement is refused because a number does not fit, all statements give what they
give where the refused one was never submitted.

    Reached.views_of_refused   the same values, errors, globals, output and exit
-/

namespace YieldMachine

/-! ## Definitions -/

/-- The words are packed instructions that do the same. -/
def Word.Alike (s : Pools) (w w' : Word) : Prop :=
  ∃ i i' : Instruction, i.Fits ∧ i'.Fits ∧ w = i.encode ∧ w' = i'.encode ∧
    Coupling.fuller.Instr s i i'

/-- Word for word the programs do the same, and the second has the fuller pool. -/
structure Program.Alike (p q : Program) : Prop where
  pools : Pools.Fuller ⟨p.pool, q.pool⟩
  words : List.Forall₂ (Word.Alike ⟨p.pool, q.pool⟩) p.code.toList q.code.toList

/-- The sessions differ in nothing but their pools and journals. -/
structure Session.Alike (s t : Session) : Prop where
  program : s.program.Alike t.program
  limits : t.limits = s.limits
  machine : s.machine.Twin t.machine
  exitCode : t.exitCode = s.exitCode

/-- What can be seen when a statement was evaluated. -/
structure View where
  result : Except SessionError Value
  globals : Globals
  console : Console
  exitCode : Option Int64

/-- What can be seen as statements are evaluated one after the other, whatever becomes of each.
It ends with none at the first that does not end. -/
def Session.views (fuel : Nat) : Session → List Node → List (Option View)
  | _, [] => []
  | s, node :: nodes =>
    match s.eval fuel node with
    | none => [none]
    | some (result, s) =>
      some ⟨result, s.machine.globals, s.machine.console, s.exitCode⟩ :: Session.views fuel s nodes

/-- Was a statement refused because the number of a constant does not fit? -/
def Session.poolFull (result : Except SessionError Value) : Bool :=
  match result with
  | .error (.compile e) => e.isPoolFull
  | _ => false

/-! ## Programs -/

namespace Program

variable {p q : Program}

theorem Alike.operand {o o' : Operand} (h : Operand.Alike ⟨p.pool, q.pool⟩ o o') :
    o.Twin p q o' := by
  cases h with
  | plain ho => exact ⟨rfl, fun hpooled => by simp [ho] at hpooled, .inl rfl⟩
  | global hi hj =>
    refine ⟨rfl, fun _ => ?_, .inr ⟨rfl, _, (Action.at?_natCast _ _).trans hi⟩⟩
    rw [Action.at?_natCast, Action.at?_natCast]
    exact hj.trans hi.symm
  | data hv hi hj =>
    refine ⟨rfl, fun _ => ?_, .inr ⟨rfl, _, (Action.at?_natCast _ _).trans hi, hv⟩⟩
    rw [Action.at?_natCast, Action.at?_natCast]
    exact hj.trans hi.symm

theorem Alike.twin (h : p.Alike q) : p.Twin q := by
  refine ⟨?_, fun ip w w' hw hw' => ?_⟩
  · have hlength := h.words.length_eq
    rw [Array.length_toList, Array.length_toList] at hlength
    exact hlength.symm
  · rw [← Array.getElem?_toList] at hw hw'
    obtain ⟨hlt, rfl⟩ := List.getElem?_eq_some_iff.1 hw
    obtain ⟨hlt', rfl⟩ := List.getElem?_eq_some_iff.1 hw'
    obtain ⟨i, i', hfits, hfits', hi, hi', hsame⟩ := h.words.get hlt hlt'
    rw [List.get_eq_getElem] at hi hi'
    unfold Word.Twin
    rw [hi, hi', Instruction.decode_encode hfits, Instruction.decode_encode hfits']
    exact ⟨hsame.opcode, Alike.operand hsame.a, Alike.operand hsame.b, Alike.operand hsame.c,
      hsame.numbers⟩

theorem Alike.grow {p' q' : Pool} (h : p.Alike q)
    (hw : Pools.Within ⟨p.pool, q.pool⟩ ⟨p', q'⟩) :
    List.Forall₂ (Word.Alike ⟨p', q'⟩) p.code.toList q.code.toList :=
  h.words.imp fun _ _ ⟨i, i', hfits, hfits', hi, hi', hsame⟩ =>
    ⟨i, i', hfits, hfits', hi, hi', hsame.grow hw⟩

theorem alike_empty : Program.empty.Alike .empty :=
  ⟨.of_within (.refl _), .nil⟩

theorem words_alike {s : Pools} {xs ys : List Instruction}
    (h : List.Forall₂ (Coupling.fuller.Instr s) xs ys) (hx : AllFit xs) (hy : AllFit ys) :
    List.Forall₂ (Word.Alike s) (xs.map Instruction.encode) (ys.map Instruction.encode) := by
  induction h with
  | nil => exact .nil
  | cons h _ ih =>
    rw [allFit_cons] at hx hy
    exact .cons ⟨_, _, hx.1, hy.1, rfl, rfl, h⟩ (ih hx.2 hy.2)

/-- A statement becomes the same code in both programs, or is refused by both for the same
reason; but the fuller pool may have no number left. -/
theorem Alike.compile (h : p.Alike q) (journal journal' : Journal) (node : Node) :
    (∃ e, (q.compile journal' node).entry = .error e ∧ e.isPoolFull) ∨
      (p.compile journal node).entry = (q.compile journal' node).entry ∧
      (p.compile journal node).program.Alike (q.compile journal' node).program := by
  obtain ⟨code, pool⟩ := p
  obtain ⟨code', pool'⟩ := q
  have hsize : code'.size = code.size := h.twin.size
  have hgrows := lower_grows node code.size .stack ⟨pool, journal⟩
  have hgrows' := lower_grows node code'.size .stack ⟨pool', journal'⟩
  have hpair : Coupling.fuller.Pairs _ (lower code.size .stack node)
      (lower code'.size .stack node) ⟨pool, journal⟩ ⟨pool', journal'⟩ :=
    lower_pairs node h.pools Coupling.same_stack
  rw [Program.compile_eq, Program.compile_eq]
  unfold Coupling.Pairs Lowering.Pairs at hpair
  cases hl' : lower code'.size .stack node ⟨pool', journal'⟩ with
  | error e b' =>
    rw [hl'] at hpair hgrows'
    obtain hgone | ⟨b, hl, hgood⟩ := hpair
    · exact .inl ⟨e, rfl, hgone⟩
    · rw [hl] at hgrows ⊢
      exact .inr ⟨rfl, hgood, h.grow ⟨hgrows, hgrows'⟩⟩
  | ok piece' b' =>
    rw [hl'] at hpair
    obtain ⟨piece, b, hl, hgood, hw, hpiece⟩ := hpair
    rw [hl]
    obtain ⟨-, hf, hr, -⟩ := lower_lowered node rfl hl
    obtain ⟨-, hf', hr', -⟩ := lower_lowered node rfl hl'
    refine .inr ⟨congrArg Except.ok hsize.symm, hgood, ?_⟩
    dsimp only
    rw [Program.toList_append, Program.toList_append]
    refine List.rel_append (h.grow hw) (words_alike hpiece.onStack ?_ ?_)
    · rw [piece.toList_onStack]
      exact allFit_pushed hf hr
    · rw [piece'.toList_onStack]
      exact allFit_pushed hf' hr'

end Program

/-! ## Runs -/

/-- Runs of twins from the same place come to the same end, or neither comes to one. -/
theorem Machine.runFrom_twin {p q : Program} {m m' : Machine} (hp : p.Twin q) (hm : m.Twin m')
    (l : Limits) (fuel start : Nat) :
    match Machine.runFrom p l fuel start m with
    | none => Machine.runFrom q l fuel start m' = none
    | some outcome => ∃ n', Machine.runFrom q l fuel start m' =
        some ⟨outcome.result, outcome.exitCode, n'⟩ ∧ outcome.machine.Twin n' := by
  have hroom : l.Room (fun _ => False) l := ⟨.inl rfl, .inl rfl, .inl rfl⟩
  split
  · next hnone =>
    have hstart : (m.restart start).Twin (m'.restart start) := by
      obtain ⟨j, rfl⟩ := hm
      exact ⟨j, rfl⟩
    have hrun := Machine.run_tracks hroom hp fuel hstart
    unfold Machine.runFrom at hnone ⊢
    split at hnone
    · next n hs =>
      rw [hs] at hrun
      obtain ⟨n', hs', -⟩ := hrun
      rw [hs']
    all_goals cases hnone
  · next outcome hsome =>
    exact Machine.runFrom_tracks hroom hp hm hsome fun _ _ h => h

/-! ## Sessions -/

namespace Session

variable {s t : Session} {fuel : Nat} {node : Node}

/-- A statement that does not compile is refused. -/
theorem eval_of_refused {e : CompileError} {program : Program} {journal : Journal}
    (hx : s.exitCode = none)
    (h : s.program.compile s.machine.journal node = ⟨.error e, program, journal⟩) :
    s.eval fuel node = some (.error (.compile e),
      ⟨program, s.limits, { s.machine with journal }, none⟩) := by
  obtain ⟨p, l, m, x⟩ := s
  dsimp only at hx h ⊢
  subst hx
  unfold Session.eval
  dsimp only
  rw [h]

/-- A statement gives the same in both sessions, and leaves them alike. -/
theorem Alike.eval (h : s.Alike t) (fuel : Nat) (node : Node) :
    match t.eval fuel node with
    | none => s.eval fuel node = none
    | some (result, t') => poolFull result ∨ ∃ s', s.eval fuel node = some (result, s') ∧ s'.Alike t' := by
  obtain ⟨p, l, m, x⟩ := s
  obtain ⟨q, l', m', x'⟩ := t
  obtain ⟨hprogram, hlimits, hmachine, hexit⟩ := h
  dsimp only at hprogram hlimits hmachine hexit ⊢
  obtain ⟨j, rfl⟩ := hmachine
  subst hlimits hexit
  cases x' with
  | some status => exact .inr ⟨_, rfl, hprogram, rfl, ⟨j, rfl⟩, rfl⟩
  | none =>
    have hcompile := hprogram.compile m.journal j node
    unfold Session.eval
    dsimp only
    rcases hc' : q.compile j node with ⟨entry', q', j'⟩
    rcases hc : p.compile m.journal node with ⟨entry, p', j₁⟩
    rw [hc, hc'] at hcompile
    dsimp only at hcompile
    obtain ⟨e, rfl, hfull⟩ | ⟨rfl, halike⟩ := hcompile
    · exact .inl hfull
    · cases entry with
      | error e => exact .inr ⟨_, rfl, halike, rfl, ⟨j', rfl⟩, rfl⟩
      | ok entry =>
        dsimp only
        have hrun := Machine.runFrom_twin halike.twin (m := { m with
            journal := j₁.record (.evaluating entry p'.code.size) })
          ⟨j'.record (.evaluating entry q'.code.size), rfl⟩ l' fuel entry
        revert hrun
        rcases Machine.runFrom p' l' fuel entry _ with _ | ⟨result, exitCode, n⟩
        · intro hrun
          rw [hrun]
        · rintro ⟨n', hrun, hn⟩
          rw [hrun]
          cases result with
          | ok v => exact .inr ⟨_, rfl, halike, rfl, hn, rfl⟩
          | error fault => exact .inr ⟨_, rfl, halike, rfl, hn, rfl⟩

/-- By induction on the statements: alike sessions show the same, unless the fuller pool has
no number left for a constant. -/
theorem Alike.views (fuel : Nat) : ∀ {s t : Session} (nodes : List Node), s.Alike t →
    (∀ view, some view ∈ t.views fuel nodes → ¬ poolFull view.result) →
    s.views fuel nodes = t.views fuel nodes := by
  intro s t nodes
  induction nodes generalizing s t with
  | nil => exact fun _ _ => rfl
  | cons node nodes ih =>
    intro h hroom
    have heval := h.eval fuel node
    unfold Session.views at hroom ⊢
    cases ht : t.eval fuel node with
    | none =>
      rw [ht] at heval
      rw [heval]
    | some pair =>
      obtain ⟨result, t'⟩ := pair
      rw [ht] at heval hroom
      dsimp only at hroom heval ⊢
      rcases heval with hfull | ⟨s', hs, h'⟩
      · exact absurd hfull (hroom _ (List.mem_cons_self ..))
      · rw [hs]
        dsimp only
        rw [ih h' fun view hview => hroom view (List.mem_cons_of_mem _ hview)]
        obtain ⟨j, hj⟩ := h'.machine
        rw [h'.exitCode, hj]

/-- A session that was reached is like itself: its words are packed instructions whose constants
are in the pool. -/
theorem Reached.alike (h : s.Reached) : s.program.Alike s.program := by
  induction h with
  | fresh => exact Program.alike_empty
  | take _ ih => exact ih
  | @eval s s' fuel node result _ he ih =>
    obtain ⟨p, l, m, x⟩ := s
    cases x with
    | some status =>
      cases he
      exact ih
    | none =>
      have hcompile := Program.Alike.compile ih m.journal m.journal node
      unfold Session.eval at he
      dsimp only at he hcompile
      rcases hc : p.compile m.journal node with ⟨entry, p', j'⟩
      rw [hc] at he hcompile
      cases entry with
      | error e =>
        cases he
        have hcode := Program.compile_error_code hc
        have hpool := (Program.compile_error hc).pool
        dsimp only
        refine ⟨.of_within (.refl _), ?_⟩
        rw [hcode]
        exact ih.grow ⟨hpool, hpool⟩
      | ok entry =>
        have halike : p'.Alike p' := by
          obtain ⟨e, hok, -⟩ | ⟨-, halike⟩ := hcompile
          · cases hok
          · exact halike
        dsimp only at he
        split at he
        · cases he
        · cases he
          exact halike
        · cases he
          exact halike

/-- A refused statement leaves the session like itself. -/
theorem Reached.alike_of_refused {e : CompileError} (hs : s.Reached)
    (h : s.eval fuel node = some (.error (.compile e), t)) : s.Alike t := by
  have hself := hs.alike
  obtain ⟨p, l, m, x⟩ := s
  cases x with
  | some status => cases h
  | none =>
    unfold Session.eval at h
    dsimp only at h
    rcases hc : p.compile m.journal node with ⟨entry, p', j'⟩
    rw [hc] at h
    cases entry with
    | ok entry =>
      dsimp only at h
      split at h <;> cases h
    | error e =>
      cases h
      have hpool := (Program.compile_error hc).pool
      refine ⟨⟨.of_within hpool, ?_⟩, rfl, ⟨j', rfl⟩, rfl⟩
      dsimp only
      rw [Program.compile_error_code hc]
      exact hself.grow ⟨.refl _, hpool⟩

/-- Whatever is evaluated behind a statement that does not compile gives what it gives without
that statement: as long as no statement is refused because the number of a constant does not
fit any more. -/
theorem Reached.views_of_refused {e : CompileError} (hs : s.Reached)
    (h : s.eval fuel node = some (.error (.compile e), t)) (nodes : List Node) (more : Nat)
    (hroom : ∀ view, some view ∈ t.views more nodes → ¬ poolFull view.result) :
    s.views more nodes = t.views more nodes :=
  (hs.alike_of_refused h).views more nodes hroom

/-- A statement that is refused after it added nil, and statements that need nil too. -/
theorem views_of_refused_nil :
    ∃ t : Session, (Session.fresh {} default default).Reached ∧
      (Session.fresh {} default default).eval 8 (.block [.block [], .primitive .exit []]) =
        some (.error (.compile (.primitiveArity .exit 0)), t) ∧
      (∀ view, some view ∈ t.views 8 [.block [], .array [.block []]] → ¬ poolFull view.result) ∧
      (Session.fresh {} default default).views 8 [.block [], .array [.block []]] =
        t.views 8 [.block [], .array [.block []]] := by
  have hs := Session.Reached.fresh {} default default
  have hrefused : ((Session.fresh {} default default).eval 8
      (.block [.block [], .primitive .exit []])).any (fun (result, t) =>
        (match result with
        | .error (.compile e) => e = .primitiveArity .exit 0
        | _ => false) &&
        (t.views 8 [.block [], .array [.block []]]).all fun view =>
          view.all fun view => !poolFull view.result) = true := by decide +kernel
  obtain ⟨⟨result, t⟩, h, hboth⟩ := (Option.any_eq_true _ _).1 hrefused
  obtain ⟨hresult, hviews⟩ := Bool.and_eq_true_iff.1 hboth
  have hroom : ∀ view, some view ∈ t.views 8 [.block [], .array [.block []]] →
      ¬ poolFull view.result := by
    intro view hview
    have hkept := List.all_eq_true.1 hviews (some view) hview
    rwa [Option.all_some, Bool.not_eq_true', ← Bool.not_eq_true] at hkept
  split at hresult
  · next e =>
    obtain rfl : e = .primitiveArity .exit 0 := of_decide_eq_true hresult
    exact ⟨t, hs, h, hroom, hs.views_of_refused h _ 8 hroom⟩
  · cases hresult

/-! ## A full pool -/

/-- An array of more integers than there are numbers is refused, and then so is an integer that
would have been fine before. -/
theorem eval_counting (fuel more : Nat) :
    ∃ t t' : Session,
      (Session.fresh {} default default).eval fuel (.array (counting 0 (Pool.room + 1))) =
        some (.error (.compile (.addressOverflow .dataIndex Pool.room)), t) ∧
      t.eval more (.literal (.int (-1))) =
        some (.error (.compile (.addressOverflow .dataIndex (Pool.room + 1))), t') := by
  obtain ⟨q, hlower, hcounts⟩ := @lowerChunks_counting 0 default Pool.room 0 0 .empty #[]
    counts_empty (Nat.zero_add _)
  have hlong : ¬ (counting 0 (Pool.room + 1)).length ≤ chunkLength := by
    simp [counting, Pool.room, chunkLength]
  have hcompile : Program.compile .empty default (.array (counting 0 (Pool.room + 1))) =
      ⟨.error (.addressOverflow .dataIndex Pool.room), ⟨#[], q⟩, default⟩ := by
    rw [Program.empty, Program.compile_eq]
    simp only [lower, if_neg hlong, Bind.bind, EStateM.bind, List.size_toArray, List.length_nil]
    rw [hlower]
  obtain ⟨hnumber, -⟩ := hcounts.add (m := -1) (by decide)
    fun i _ => by rw [show (-1 : Int64).toInt = -1 from rfl]; omega
  have hcompile' : Program.compile ⟨#[], q⟩ default (.literal (.int (-1))) =
      ⟨.error (.addressOverflow .dataIndex (Pool.room + 1)), ⟨#[], (q.add (.int (-1))).2⟩,
        default⟩ := by
    rw [Program.compile_eq]
    simp only [lower_int]
    rw [if_neg (by omega), hnumber]
    rfl
  exact ⟨_, _, eval_of_refused rfl hcompile, eval_of_refused rfl hcompile'⟩

/-- The integer is fine in a fresh session. -/
theorem eval_minusOne :
    ∃ s : Session, (Session.fresh {} default default).eval 2 (.literal (.int (-1))) =
      some (.ok (.int (-1)), s) := by
  obtain ⟨hnumber, hconstants⟩ := counts_empty.add (m := -1) (by decide) fun i hi => by omega
  have hlower : lower 0 .stack (.literal (.int (-1))) ⟨.empty, default⟩ =
      .ok ⟨#[], ⟨.data, 0⟩⟩ ⟨(Pool.empty.add (.int (-1))).2, default⟩ := by
    rw [lower_int, if_pos (by rw [hnumber]; decide), hnumber]
    rfl
  have hcompile : Program.compile .empty default (.literal (.int (-1))) =
      ⟨.ok 0, ⟨#[Instruction.encode ⟨.move, .stack, ⟨.data, 0⟩, .unused⟩],
        (Pool.empty.add (.int (-1))).2⟩, default⟩ := by
    rw [Program.empty, Program.compile_eq]
    simp only [List.size_toArray, List.length_nil]
    have hmove : materialize ⟨.data, 0⟩ .stack = #[⟨.move, .stack, ⟨.data, 0⟩, .unused⟩] := rfl
    rw [hlower]
    simp [Piece.onStack, hmove, Program.append]
  revert hcompile
  generalize (Pool.empty.add (.int (-1))).2 = q at hconstants
  obtain ⟨constants, index, index_iff⟩ := q
  obtain rfl : constants = #[.int (-1)] := hconstants
  intro hcompile
  unfold Session.eval Session.fresh
  dsimp only [Machine.fresh]
  rw [hcompile]
  simp only [Machine.runFrom, Machine.run_succ]
  unfold Machine.step
  simp only [Machine.restart, Context.start]
  exact ⟨_, rfl⟩

/-- So a refused statement does show. -/
theorem refused_visible :
    ¬ ∀ (s t : Session) (fuel more : Nat) (node : Node) (e : CompileError), s.Reached →
      s.eval fuel node = some (.error (.compile e), t) →
      ∀ nodes : List Node, s.views more nodes = t.views more nodes := by
  intro hsame
  obtain ⟨t, t', hrefused, hfull⟩ := eval_counting 2 2
  obtain ⟨s, hfine⟩ := eval_minusOne
  have hviews := hsame _ t 2 2 _ _ (.fresh {} default default) hrefused [.literal (.int (-1))]
  unfold Session.views at hviews
  rw [hfine, hfull] at hviews
  cases hviews

end Session

end YieldMachine
