import YieldMachine.Proofs.Twin.Action

/-!
# Runs side by side

Twins that execute twin programs stay twins through context switches too, so a run of one
ends as a run of the other does, after as many steps.

    Machine.step_tracks, Machine.run_tracks
-/

namespace YieldMachine

/-! ## Definitions -/

/-- The words of two programs are read as instructions that do the same, or both as none. -/
def Word.Twin (p q : Program) (w w' : Word) : Prop :=
  match Instruction.decode w, Instruction.decode w' with
  | .ok i, .ok i' => i.Twin p q i'
  | .error e, .error e' => e' = e
  | _, _ => False

/-- Two programs of the same length do the same word for word. -/
structure Program.Twin (p q : Program) : Prop where
  size : q.code.size = p.code.size
  word : ∀ (ip : Nat) (w w' : Word), p.code[ip]? = some w → q.code[ip]? = some w' →
    w.Twin p q w'

/-- Where one step leads, the other leads to a twin; but the first may give up. -/
def Step.Tracks (T : Cause → Prop) : Step → Step → Prop
  | .running m, s => ∃ m', s = .running m' ∧ m.Twin m'
  | .finished v m, s => ∃ m', s = .finished v m' ∧ m.Twin m'
  | .exited status m, s => ∃ m', s = .exited status m' ∧ m.Twin m'
  | .faulted fault m, s => T fault.cause ∨ ∃ m', s = .faulted fault m' ∧ m.Twin m'

theorem Program.Twin.refl (p : Program) : p.Twin p := by
  refine ⟨rfl, fun ip w w' h h' => ?_⟩
  cases h.symm.trans h'
  unfold Word.Twin
  cases Instruction.decode w with
  | ok i => exact .refl p i
  | error e => rfl

variable {T : Cause → Prop} {p q : Program} {l l' : Limits} {m m' : Machine} {i i' : Instruction}
  {o o' : Operand} {ip : Nat}

namespace Action

/-! ## Switches -/

theorem checkDepth_tracks (hroom : l.Room T l') (hm : m.Twin m') :
    Tracks T (checkDepth l) (checkDepth l') m m' := by
  obtain ⟨j, rfl⟩ := hm
  refine Tracks.get ?_
  exact tracks_guard ⟨j, rfl⟩ hroom.contexts fun _ => tracks_pure _ ⟨j, rfl⟩

theorem openGroup_tracks (hm : m.Twin m') : Tracks T openGroup openGroup m m' := by
  obtain ⟨j, rfl⟩ := hm
  exact tracks_modify ⟨j, rfl⟩

theorem closeGroup_tracks (hm : m.Twin m') : Tracks T (closeGroup ip) (closeGroup ip) m m' := by
  obtain ⟨j, rfl⟩ := hm
  refine Tracks.get ?_
  obtain ⟨active, consumers, globals, heap, console, journal⟩ := m
  dsimp only
  cases active.loops.back? with
  | none => exact tracks_throw _ ⟨j, rfl⟩
  | some group =>
    refine Tracks.bind (tracks_set ⟨j, rfl⟩) fun _ _ _ hm => ?_
    split
    · exact record_tracks _ hm
    · exact tracks_pure _ hm

theorem spawn_tracks (hroom : l.Room T l') (hsize : q.code.size = p.code.size)
    {a b a' b' : Operand} (ha : a'.address = a.address) (hb : b'.address = b.address)
    (hm : m.Twin m') : Tracks T (spawn p l ip a b) (spawn q l' ip a' b') m m' := by
  refine (checkDepth_tracks hroom hm).bind fun _ _ _ hm => ?_
  refine (target_tracks ip hsize ha hm).bind fun cont _ _ hm => ?_
  refine (target_tracks ip hsize hb hm).bind fun dropIp n n' hm => ?_
  obtain ⟨j, rfl⟩ := hm
  refine Tracks.get ?_
  obtain ⟨active, consumers, globals, heap, console, journal⟩ := n
  dsimp only
  cases active.loops.back? with
  | none => exact tracks_throw _ ⟨j, rfl⟩
  | some group =>
    exact Tracks.bind (tracks_set ⟨j, rfl⟩) fun _ _ _ hm => record_tracks _ hm

theorem resume_tracks (hroom : l.Room T l') (hsize : q.code.size = p.code.size)
    {a b a' b' : Operand} (ha : a'.address = a.address) (hb : b'.address = b.address)
    (hm : m.Twin m') : Tracks T (resume p l ip a b) (resume q l' ip a' b') m m' := by
  refine (checkDepth_tracks hroom hm).bind fun _ _ _ hm => ?_
  refine (target_tracks ip hsize hb hm).bind fun dropIp n n' hm => ?_
  obtain ⟨j, rfl⟩ := hm
  dsimp only
  rw [ha]
  refine Tracks.get ?_
  obtain ⟨active, consumers, globals, heap, console, journal⟩ := n
  dsimp only
  rcases active.slot? a.address.toNat with _ | _ | producer
  · exact tracks_throw _ ⟨j, rfl⟩
  · exact tracks_throw _ ⟨j, rfl⟩
  · exact Tracks.bind (tracks_set ⟨j, rfl⟩) fun _ _ _ hm => record_tracks _ hm

theorem endIteration_tracks (hm : m.Twin m') :
    Tracks T (endIteration ip) (endIteration ip) m m' := by
  obtain ⟨j, rfl⟩ := hm
  refine Tracks.get ?_
  obtain ⟨active, consumers, globals, heap, console, journal⟩ := m
  dsimp only
  cases consumers.back? with
  | none => exact tracks_throw _ ⟨j, rfl⟩
  | some consumer =>
    dsimp only
    cases consumer.pending with
    | none => exact tracks_throw _ ⟨j, rfl⟩
    | some pending =>
      exact Tracks.bind (tracks_set ⟨j, rfl⟩) fun _ _ _ hm => record_tracks _ hm

theorem yield_tracks (hroom : l.Room T l') (ho : o.Twin p q o') (hm : m.Twin m') :
    Tracks T (yield p l ip o) (yield q l' ip o') m m' := by
  refine (fetch_tracks ho hm).bind fun v n n' hm => ?_
  obtain ⟨j, rfl⟩ := hm
  refine Tracks.get ?_
  obtain ⟨active, consumers, globals, heap, console, journal⟩ := n
  dsimp only
  cases consumers.back? with
  | none => exact tracks_throw _ ⟨j, rfl⟩
  | some consumer =>
    dsimp only
    cases consumer.pending with
    | none => exact tracks_throw _ ⟨j, rfl⟩
    | some pending =>
      dsimp only
      cases consumer.slot? pending.slot with
      | none => exact tracks_throw _ ⟨j, rfl⟩
      | some _ =>
        exact Tracks.bind (tracks_set ⟨j, rfl⟩) fun _ _ _ hm =>
          (record_tracks _ hm).bind fun _ _ _ hm => push_tracks hroom v hm

theorem ret_tracks (hroom : l.Room T l') (ho : o.Twin p q o') (hm : m.Twin m') :
    Tracks T (ret p l ip o) (ret q l' ip o') m m' := by
  refine (fetch_tracks ho hm).bind fun v n n' hm => ?_
  obtain ⟨j, rfl⟩ := hm
  refine Tracks.get ?_
  obtain ⟨active, consumers, globals, heap, console, journal⟩ := n
  dsimp only
  cases leaveProducers active consumers 0 with
  | none => exact tracks_throw _ ⟨j, rfl⟩
  | some left =>
    obtain ⟨active', consumers', gone⟩ := left
    dsimp only
    cases active'.calls.back? with
    | none => exact tracks_throw _ ⟨j, rfl⟩
    | some call =>
      dsimp only
      have hleave : @Tracks Unit T (do
            set (Machine.mk (active'.leave call) consumers' globals heap console journal)
            if 0 < gone + active'.discardedAbove call.loopDepth then
              record (.unwound ip (gone + active'.discardedAbove call.loopDepth)))
          (do
            set (Machine.mk (active'.leave call) consumers' globals heap console j)
            if 0 < gone + active'.discardedAbove call.loopDepth then
              record (.unwound ip (gone + active'.discardedAbove call.loopDepth)))
          ⟨active, consumers, globals, heap, console, journal⟩
          ⟨active, consumers, globals, heap, console, j⟩ := by
        refine Tracks.bind (tracks_set ⟨j, rfl⟩) fun _ _ _ hm => ?_
        split
        · exact record_tracks _ hm
        · exact tracks_pure _ hm
      split
      · exact hleave.bind fun _ _ _ hm => tracks_throw _ hm
      · exact hleave.bind fun _ _ _ hm => (push_tracks hroom v hm).bind fun _ _ _ hm =>
          goto_tracks _ hm

/-! ## Instructions -/

/-- Instructions that do the same lead from twins to twins. -/
theorem effect_tracks (hroom : l.Room T l') (hsize : q.code.size = p.code.size)
    (hi : i.Twin p q i') (hm : m.Twin m') :
    Tracks T (i.effect.run p l ip i) (i.effect.run q l' ip i') m m' := by
  have hnext : ∀ {x y : Action Unit}, Tracks T x y m m' →
      Tracks T (do x; return Flow.next) (do y; return Flow.next) m m' :=
    fun hx => hx.bind fun _ _ _ hm => tracks_pure _ hm
  have hnumbers := hi.numbers
  rw [Instruction.numbers, Instruction.numbers,
    show i'.effect = i.effect from congrArg Opcode.effect hi.opcode] at hnumbers
  cases heffect : i.effect with
  | unary f => exact hnext (unary_tracks hroom hi f hm)
  | binary f => exact hnext (binary_tracks hroom hi f hm)
  | pop => exact hnext ((pop_tracks hm).bind fun _ _ _ hm => tracks_pure _ hm)
  | slice => exact hnext (slice_tracks hroom hi hm)
  | makeArray =>
    simp only [heffect, List.cons.injEq, and_true] at hnumbers
    exact hnext (makeArray_tracks hroom hi hnumbers hm)
  | jump =>
    simp only [heffect, List.cons.injEq, and_true] at hnumbers
    exact (target_tracks ip hsize hnumbers hm).bind fun _ _ _ hm =>
      (goto_tracks _ hm).bind fun _ _ _ hm => tracks_pure _ hm
  | jumpIfFalse =>
    simp only [heffect, List.cons.injEq, and_true] at hnumbers
    exact hnext (jumpIfFalse_tracks ip hsize hi hnumbers hm)
  | makeFunction =>
    simp only [heffect, List.cons.injEq, and_true] at hnumbers
    obtain ⟨ha, hb, hc⟩ := hnumbers
    exact hnext (makeFunction_tracks hroom ip hsize ha hb hc hm)
  | call =>
    simp only [heffect, List.cons.injEq, and_true] at hnumbers
    exact hnext (call_tracks hroom hnumbers hi.b hm)
  | ret => exact hnext (ret_tracks hroom hi.b hm)
  | openGroup => exact hnext (openGroup_tracks hm)
  | spawn =>
    simp only [heffect, List.cons.injEq, and_true] at hnumbers
    exact hnext (spawn_tracks hroom hsize hnumbers.1 hnumbers.2 hm)
  | endIteration => exact hnext (endIteration_tracks hm)
  | resume =>
    simp only [heffect, List.cons.injEq, and_true] at hnumbers
    exact hnext (resume_tracks hroom hsize hnumbers.1 hnumbers.2 hm)
  | yield => exact hnext (yield_tracks hroom hi.b hm)
  | closeGroup => exact hnext (closeGroup_tracks hm)
  | readLine => exact hnext (readLine_tracks hroom hi hm)
  | write ending => exact hnext (write_tracks hroom hi ending hm)
  | exit => exact (fetch_tracks hi.b hm).bind fun _ _ _ hm => tracks_pure _ hm

end Action

/-! ## Steps -/

theorem Machine.Twin.active (hm : m.Twin m') : m'.active = m.active := by
  obtain ⟨j, rfl⟩ := hm
  rfl

theorem Machine.finish_tracks (hm : m.Twin m') : (m.finish ip).Tracks T (m'.finish ip) := by
  obtain ⟨j, rfl⟩ := hm
  unfold Machine.finish
  dsimp only
  split
  · exact ⟨_, rfl, j, rfl⟩
  · exact .inr ⟨_, rfl, j, rfl⟩

/-- A step of a machine and one of its twin lead to twins. -/
theorem Machine.step_tracks (hroom : l.Room T l') (hp : p.Twin q) (hm : m.Twin m') :
    (m.step p l).Tracks T (m'.step q l') := by
  unfold Machine.step
  dsimp only
  rw [hm.active]
  cases hw : p.code[m.active.ip]? with
  | none =>
    have hnone : q.code[m.active.ip]? = none := by
      rw [Array.getElem?_eq_none_iff] at hw ⊢
      rw [hp.size]
      exact hw
    rw [hnone]
    exact Machine.finish_tracks hm
  | some w =>
    obtain ⟨w', hw'⟩ : ∃ w', q.code[m.active.ip]? = some w' := by
      have hlt := (Array.getElem?_eq_some_iff.1 hw).1
      exact ⟨_, Array.getElem?_eq_getElem (by rw [hp.size]; exact hlt)⟩
    have htwin := hp.word _ _ _ hw hw'
    rw [hw']
    dsimp only
    unfold Word.Twin at htwin
    cases hi : Instruction.decode w with
    | error e =>
      cases hi' : Instruction.decode w' with
      | ok i' => rw [hi, hi'] at htwin; exact htwin.elim
      | error e' =>
        rw [hi, hi'] at htwin
        obtain rfl : e' = e := htwin
        exact .inr ⟨m', rfl, hm⟩
    | ok i =>
      cases hi' : Instruction.decode w' with
      | error e' => rw [hi, hi'] at htwin; exact htwin.elim
      | ok i' =>
        rw [hi, hi'] at htwin
        dsimp only at htwin ⊢
        have hstart : (Machine.goto (if l.trace then
              m.record (.executing m.active.ip i m.consumers.size) else m)
            (m.active.ip + 1)).Twin (Machine.goto (if l'.trace then
              m'.record (.executing m.active.ip i' m'.consumers.size) else m')
            (m.active.ip + 1)) := by
          obtain ⟨j, rfl⟩ := hm
          split <;> split <;> exact ⟨_, rfl⟩
        have heffect : Action.Tracks T (i.effect.run p l m.active.ip i) _ _ _ :=
          Action.effect_tracks hroom hp.size htwin hstart
        rw [Action.execute_eq, Action.execute_eq,
          show i'.effect = i.effect from congrArg Opcode.effect htwin.opcode]
        unfold Action.Tracks at heffect
        revert heffect
        cases Effect.run p l m.active.ip i i.effect _ with
        | ok flow n =>
          rintro ⟨n', hy, hn⟩
          rw [hy]
          cases flow with
          | next => exact ⟨n', rfl, hn⟩
          | exit status => exact ⟨n', rfl, hn⟩
        | error cause n =>
          rintro (hgone | ⟨n', hy, hn⟩)
          · exact .inl hgone
          · rw [hy]
            exact .inr ⟨n', rfl, hn⟩

/-! ## Runs -/

/-- A run of a machine and one of its twin, with the same fuel, come to twins. -/
theorem Machine.run_tracks (hroom : l.Room T l') (hp : p.Twin q) (fuel : Nat) :
    ∀ {m m' : Machine}, m.Twin m' →
      (Machine.run p l fuel m).Tracks T (Machine.run q l' fuel m') := by
  induction fuel with
  | zero => exact fun hm => ⟨_, rfl, hm⟩
  | succ fuel ih =>
    intro m m' hm
    have hstep := Machine.step_tracks hroom hp hm
    rw [Machine.run_succ, Machine.run_succ]
    cases hs : m.step p l with
    | running n =>
      rw [hs] at hstep
      obtain ⟨n', hs', hn⟩ := hstep
      rw [hs']
      exact ih hn
    | finished v n =>
      rw [hs] at hstep
      obtain ⟨n', hs', hn⟩ := hstep
      rw [hs']
      exact ⟨n', rfl, hn⟩
    | exited status n =>
      rw [hs] at hstep
      obtain ⟨n', hs', hn⟩ := hstep
      rw [hs']
      exact ⟨n', rfl, hn⟩
    | faulted fault n =>
      rw [hs] at hstep
      obtain hgone | ⟨n', hs', hn⟩ := hstep
      · exact .inl hgone
      · rw [hs']
        exact .inr ⟨n', rfl, hn⟩

/-- Runs of twins from the same place come to the same end, unless the first gives up. -/
theorem Machine.runFrom_tracks (hroom : l.Room T l') (hp : p.Twin q) (hm : m.Twin m')
    {fuel start : Nat} {outcome : Outcome}
    (h : Machine.runFrom p l fuel start m = some outcome)
    (hkept : ∀ fault, outcome.result = .error fault → ¬ T fault.cause) :
    ∃ n', Machine.runFrom q l' fuel start m' =
      some ⟨outcome.result, outcome.exitCode, n'⟩ ∧ outcome.machine.Twin n' := by
  have hstart : (m.restart start).Twin (m'.restart start) := by
    obtain ⟨j, rfl⟩ := hm
    exact ⟨j, rfl⟩
  have hrun := Machine.run_tracks hroom hp fuel hstart
  unfold Machine.runFrom at h ⊢
  cases hs : Machine.run p l fuel (m.restart start) with
  | running n =>
    rw [hs] at h
    cases h
  | finished v n =>
    rw [hs] at h hrun
    cases h
    obtain ⟨n', hs', hn⟩ := hrun
    rw [hs']
    exact ⟨n', rfl, hn⟩
  | exited status n =>
    rw [hs] at h hrun
    cases h
    obtain ⟨n', hs', hn⟩ := hrun
    rw [hs']
    exact ⟨n', rfl, hn⟩
  | faulted fault n =>
    rw [hs] at h hrun
    cases h
    obtain hgone | ⟨n', hs', j, rfl⟩ := hrun
    · exact absurd hgone (hkept fault rfl)
    · rw [hs', hp.size]
      exact ⟨_, rfl, j, rfl⟩

end YieldMachine
