import YieldMachine.Proofs.Machine.Move

/-!
# Steps of any code

Nothing is asked here of the program or of the machine: the words may be anything. What
an instruction did can be told from the fact that it succeeded, and what is amiss from
the fault it raised.

    step_taken   a step moves, exits, finishes, or fails for a reason the machine shows
-/

namespace YieldMachine

/-! ## Definitions -/

/-- A property that holds of every function. -/
def Func.Any : Func → Prop :=
  fun _ => True

/-- The machine has the contexts of another one, but for the place and the stack of the
active one. -/
def Machine.Alike (m m' : Machine) : Prop :=
  m'.consumers = m.consumers ∧
    ∃ (ip : Nat) (stack : Array Value), m'.active = { m.active with ip, stack }

/-- What is amiss when an instruction breaks the protocol of producers and consumers. -/
def Machine.Misused (m : Machine) (i : Instruction) : Misuse → Prop
  | .spawnOutsideLoop => i.effect = .spawn ∧ m.active.loops.back? = none
  | .yieldOutsideProducer => i.effect = .yield ∧ m.consumers.back? = none
  | .consumerNotWaiting => (i.effect = .yield ∨ i.effect = .endIteration) ∧
      ∃ consumer, m.consumers.back? = some consumer ∧ consumer.pending = none
  | .consumerWithoutSlot => i.effect = .yield ∧ ∃ consumer p,
      m.consumers.back? = some consumer ∧ consumer.pending = some p ∧ consumer.slot? p.slot = none
  | .nothingToResume => i.effect = .resume ∧
      ∀ producer, m.active.slot? i.a.address.toNat ≠ some (some producer)
  | .finishWithoutConsumer => i.effect = .endIteration ∧ m.consumers.back? = none
  | .noLoopToClose => i.effect = .closeGroup ∧ m.active.loops.back? = none
  | .endInsideProducer => False

/-- The context that a return leaves has fewer frames than its caller had. -/
def Machine.Short (m : Machine) (i : Instruction) : Prop :=
  ∃ c cs gone r, Action.leaveProducers ((m.active.moved (m.active.ip + 1)).swap i.takes #[])
    m.consumers 0 = some (c, cs, gone) ∧ c.calls.back? = some r ∧
      c.lacksFrames r.frameDepth = true

/-- An instruction failed: it left the contexts as they were or as a move leaves them, and
the machine shows why. -/
structure Machine.Failed (program : Program) (i : Instruction) (m : Machine) (cause : Cause)
    (m' : Machine) : Prop where
  contexts : m.Alike m' ∨ ∃ m₁, Move program Func.Any i m m₁ ∧ m₁.Alike m'
  misuse : ∀ u, cause = .contextMisuse u → m.Misused i u
  short : i.effect = .ret → cause = .frameUnderflow →
    Missing m.active.frames m.heap i.b cause ∨ m.Short i

/-- An instruction went well: it moved the machine, or it is an exit and read its operand. -/
def Machine.Done (program : Program) (i : Instruction) (m : Machine) : Flow → Machine → Prop
  | .next, m' => Move program Func.Any i m m'
  | .exit _, m' => i.effect = .exit ∧ m' = (m.goto (m.active.ip + 1)).cut i.takes

/-- A fault inside one context, that breaks no protocol. -/
def Machine.Quiet (m : Machine) (cause : Cause) (m' : Machine) : Prop :=
  m.Alike m' ∧ ∀ u, cause ≠ .contextMisuse u

/-! ## Lemmas -/

variable {program : Program} {limits : Limits} {m m₁ m' : Machine} {i : Instruction}
  {o : Operand} {v : Value} {cause : Cause} {n k ip : Nat}

theorem Value.allFunctions_any (v : Value) : v.AllFunctions Func.Any :=
  .of_forall (fun _ => trivial) v

theorem Machine.memory_any (m : Machine) : m.Memory Func.Any :=
  ⟨fun _ => Value.allFunctions_any _, fun _ _ v _ => v.allFunctions_any⟩

theorem Machine.Alike.refl (m : Machine) : m.Alike m := by
  refine ⟨rfl, m.active.ip, m.active.stack, ?_⟩
  cases m.active
  rfl

theorem Machine.Alike.trans (h : m.Alike m₁) (h' : m₁.Alike m') : m.Alike m' := by
  obtain ⟨hcs, ip, stack, ha⟩ := h
  obtain ⟨hcs', ip', stack', ha'⟩ := h'
  exact ⟨hcs'.trans hcs, ip', stack', by rw [ha', ha]⟩

theorem Machine.alike_cut (m : Machine) (n : Nat) : m.Alike (m.cut n) :=
  ⟨rfl, _, _, rfl⟩

theorem Machine.alike_goto (m : Machine) (ip : Nat) : m.Alike (m.goto ip) :=
  ⟨rfl, _, _, rfl⟩

theorem Machine.Quiet.of_alike (h : m.Alike m₁) (h' : m₁.Quiet cause m') : m.Quiet cause m' :=
  ⟨h.trans h'.1, h'.2⟩

theorem Machine.Quiet.failed (h : m.Quiet cause m') (he : i.effect ≠ .ret) :
    m.Failed program i cause m' :=
  ⟨.inl h.1, fun u hu => absurd hu (h.2 u), fun hr => absurd hr he⟩

namespace Action

/-! ## Operands -/

theorem Leads.fault {α : Type} {Q : α → Machine → Prop} (hc : ∀ u, cause ≠ .contextMisuse u) :
    Leads (throw cause) m Q m.Quiet :=
  Leads.of_error rfl ⟨.refl m, hc⟩

theorem pop_any : Leads pop m (fun v m' => m' = m.cut 1 ∧ m.active.stack.back? = some v)
    (fun cause m' => cause = .stackUnderflow ∧ m' = m) := by
  cases hback : m.active.stack.back? with
  | none =>
    refine Leads.get ?_
    rw [hback]
    exact Leads.of_error rfl ⟨rfl, rfl⟩
  | some v => exact Leads.of_ok (pop_eq hback) ⟨rfl, rfl⟩

theorem globalName_any {index : Int} : Leads (globalName program index) m
    (fun name m' => at? program.pool.constants index = some (.string name) ∧ m' = m)
    (fun cause m' => (cause = .invalidGlobalName index ∨ cause = .dataOutOfRange index) ∧
      m' = m) := by
  unfold globalName
  split
  · next name h => exact Leads.of_ok rfl ⟨h, rfl⟩
  · exact Leads.of_error rfl ⟨.inl rfl, rfl⟩
  · exact Leads.of_error rfl ⟨.inr rfl, rfl⟩

/-- A failed read leaves the machine as it was; a frame underflow is a missing frame. -/
def Unread (m : Machine) (o : Operand) (cause : Cause) (m' : Machine) : Prop :=
  m' = m ∧ (∀ u, cause ≠ .contextMisuse u) ∧
    (cause = .frameUnderflow → Missing m.active.frames m.heap o cause)

theorem Unread.of_missing (h : Missing m.active.frames m.heap o cause) : Unread m o cause m := by
  refine ⟨rfl, ?_, fun _ => h⟩
  cases h <;> simp

theorem fetch_any (program : Program) (m : Machine) (o : Operand) : Leads (fetch program o) m
    (fun v m' => m' = m.cut o.cells ∧ m.value? program o = some v) (Unread m o) := by
  obtain ⟨mode, address⟩ := o
  cases mode with
  | immediate => exact Leads.of_ok rfl ⟨m.cut_zero.symm, rfl⟩
  | global =>
    refine Leads.bind (globalName_any.mono (fun _ _ h => h) ?_) ?_
    · rintro cause _ ⟨rfl | rfl, rfl⟩ <;> exact ⟨rfl, by simp, by simp⟩
    · rintro name _ ⟨hname, rfl⟩
      refine Leads.of_ok rfl ⟨(Machine.cut_zero _).symm, ?_⟩
      simp only [Machine.value?]
      rw [hname]
  | frame =>
    refine (readSlot_leads (o := ⟨.frame, address⟩) rfl m.memory_any).mono ?_ ?_
    · rintro v m' ⟨rfl, -, hval⟩
      exact ⟨m'.cut_zero.symm, hval⟩
    · rintro cause m' ⟨h, rfl⟩
      exact .of_missing h
  | closure =>
    refine (readSlot_leads (o := ⟨.closure, address⟩) rfl m.memory_any).mono ?_ ?_
    · rintro v m' ⟨rfl, -, hval⟩
      exact ⟨m'.cut_zero.symm, hval⟩
    · rintro cause m' ⟨h, rfl⟩
      exact .of_missing h
  | stack =>
    refine pop_any.mono (fun _ _ h => h) ?_
    rintro cause _ ⟨rfl, rfl⟩
    exact ⟨rfl, by simp, by simp⟩
  | data =>
    simp only [fetch]
    split
    · next v hv => exact Leads.of_ok rfl ⟨m.cut_zero.symm, hv⟩
    · exact Leads.of_error rfl ⟨rfl, by simp, by simp⟩

theorem read_any (program : Program) (m : Machine) (o : Operand) : Leads (fetch program o) m
    (fun v m' => m' = m.cut o.cells ∧ m.value? program o = some v) m.Quiet :=
  (fetch_any program m o).mono (fun _ _ h => h) fun _ _ ⟨hm, hc, _⟩ => ⟨hm ▸ .refl m, hc⟩

theorem write_any (program : Program) (limits : Limits) (m : Machine) (o : Operand) (v : Value) :
    Leads (store program limits o v) m (fun _ m' => m.Reworked Func.Any 0 o.cells m')
      m.Quiet := by
  have hw : program.Writable o → Leads (store program limits o v) m
      (fun _ m' => m.Reworked Func.Any 0 o.cells m') m.Quiet := by
    intro hw
    refine (store_leads hw m.memory_any v.allFunctions_any).mono ?_ ?_
    · rintro _ m' ⟨g, h, rfl, hmem⟩
      exact ⟨_, g, h, m.console, o.size_received v,
        o.received_allFunctions v.allFunctions_any, rfl, hmem⟩
    · rintro cause m' ⟨rfl | h, rfl⟩
      · exact ⟨.refl m', by simp⟩
      · exact ⟨.refl m', (Unread.of_missing h).2.1⟩
  obtain ⟨mode, address⟩ := o
  cases mode with
  | immediate | data => exact Leads.fault (by simp)
  | global =>
    refine Leads.bind (P := fun name m' =>
      at? program.pool.constants address = some (.string name) ∧ m' = m)
      (globalName_any.mono (fun _ _ h => h) ?_) ?_
    · rintro cause _ ⟨rfl | rfl, rfl⟩ <;> exact ⟨.refl _, by simp⟩
    · rintro name _ ⟨hname, rfl⟩
      have := hw ⟨name, hname⟩
      unfold store at this
      dsimp only at this
      rwa [globalName_eq hname, pure_bind] at this
  | frame | closure | stack => exact hw trivial

theorem put_any (limits : Limits) (m : Machine) (v : Value) :
    Leads (push limits v) m (fun _ m' => m.Reworked Func.Any 0 1 m') m.Quiet :=
  write_any default limits m ⟨.stack, 0⟩ v

theorem target_any (program : Program) (m : Machine) (ip : Nat) (o : Operand) :
    Leads (target program ip o) m (fun t m' => t = Program.jumpTarget ip o ∧ m' = m)
      m.Quiet := by
  unfold target
  dsimp only
  split
  · exact Leads.of_ok rfl ⟨rfl, rfl⟩
  · exact Leads.fault (by simp)

/-! ## Instructions that stay in their context -/

theorem Leads.after {α : Type} {x : Action α} {P : α → Machine → Prop}
    (hm : m.Alike m₁) (h : Leads x m₁ P m₁.Quiet) : Leads x m₁ P m.Quiet :=
  h.mono (fun _ _ h => h) fun _ _ => .of_alike hm

theorem stored_any (n : Nat) (o : Operand) (v : Value) :
    Leads (store program limits o v) (m.cut n) (fun _ m' => m.Reworked Func.Any n o.cells m')
      m.Quiet :=
  (Leads.after (m.alike_cut n) (write_any program limits _ o v)).mono
    (fun _ _ => reworked_of_cut) fun _ _ h => h

theorem pushed_any (n : Nat) (v : Value) :
    Leads (push limits v) (m.cut n) (fun _ m' => m.Reworked Func.Any n 1 m') m.Quiet :=
  (Leads.after (m.alike_cut n) (put_any limits _ v)).mono
    (fun _ _ => reworked_of_cut) fun _ _ h => h

theorem unary_any (f : Value → Value) : Leads (unary program limits i f) m
    (fun _ m' => m.Reworked Func.Any i.b.cells i.a.cells m') m.Quiet := by
  refine (read_any program m i.b).bind ?_
  rintro v _ ⟨rfl, -⟩
  exact stored_any _ _ _

theorem binary_any (f : Value → Value → Value) : Leads (binary program limits i f) m
    (fun _ m' => m.Reworked Func.Any (i.b.cells + i.c.cells) i.a.cells m') m.Quiet := by
  refine (read_any program m i.c).bind ?_
  rintro right _ ⟨rfl, -⟩
  refine (Leads.after (m.alike_cut _) (read_any program _ i.b)).bind ?_
  rintro left _ ⟨rfl, -⟩
  rw [cut_cut, Nat.add_comm]
  exact stored_any _ _ _

theorem popped_any : Leads (discard pop) m (fun _ m' => m.Reworked Func.Any 1 0 m') m.Quiet := by
  refine Leads.bind (P := fun _ m' => m' = m.cut 1) ?_ ?_
  · refine pop_any.mono (fun _ _ h => h.1) ?_
    rintro cause _ ⟨rfl, rfl⟩
    exact ⟨.refl _, by simp⟩
  · rintro _ _ rfl
    exact Leads.of_ok rfl (reworked_zero m.memory_any 1)

theorem slice_any : Leads (slice program limits i) m
    (fun _ m' => m.Reworked Func.Any (i.a.cells + i.b.cells + i.c.cells) 1 m') m.Quiet := by
  refine (read_any program m i.c).bind ?_
  rintro stop _ ⟨rfl, -⟩
  refine (Leads.after (m.alike_cut _) (read_any program _ i.b)).bind ?_
  rintro start _ ⟨rfl, -⟩
  rw [cut_cut]
  refine (Leads.after (m.alike_cut _) (read_any program _ i.a)).bind ?_
  rintro target _ ⟨rfl, -⟩
  rw [cut_cut, show i.c.cells + i.b.cells + i.a.cells = i.a.cells + i.b.cells + i.c.cells by omega]
  exact pushed_any _ _

theorem makeArray_any : Leads (makeArray program limits i) m
    (fun _ m' => m.Reworked Func.Any i.b.address.toNat i.a.cells m') m.Quiet := by
  refine Leads.get ?_
  dsimp only
  split
  · next h =>
    refine (Leads.of_ok (truncate_eq _ (Nat.sub_le _ _)) rfl).bind (P := fun _ m' => m' = _) ?_
    rintro _ _ rfl
    rw [show m.active.stack.size - (m.active.stack.size - i.b.address.toNat) =
      i.b.address.toNat by omega]
    exact stored_any _ _ _
  · exact Leads.fault (by simp)

theorem readLine_any : Leads (readLine program limits i) m
    (fun _ m' => m.Reworked Func.Any 0 i.a.cells m') m.Quiet := by
  obtain ⟨c, cs, g, h, co, j⟩ := m
  refine Leads.bind (P := fun _ m' => m' = ⟨c, cs, g, h, co.read.2, j⟩)
    (Leads.of_ok rfl rfl) ?_
  rintro line _ rfl
  have halike : Machine.Alike ⟨c, cs, g, h, co, j⟩ ⟨c, cs, g, h, co.read.2, j⟩ :=
    Machine.Alike.refl ⟨c, cs, g, h, co, j⟩
  exact Leads.after halike (write_any program limits _ _ _)

theorem write_effect_any (ending : String) : Leads (write program limits i ending) m
    (fun _ m' => m.Reworked Func.Any i.b.cells i.a.cells m') m.Quiet := by
  refine (read_any program m i.b).bind ?_
  rintro v _ ⟨rfl, -⟩
  obtain ⟨c, cs, g, h, co, j⟩ := m
  refine Leads.bind (P := fun _ m' => m' = ⟨c.swap i.b.cells #[], cs, g, h,
    co.write (v.text ++ ending), j⟩) (Leads.of_ok rfl rfl) ?_
  rintro _ _ rfl
  exact stored_any (m := ⟨c, cs, g, h, co.write (v.text ++ ending), j⟩) _ _ _

theorem jumpIfFalse_any : Leads (jumpIfFalse program ip i) m
    (fun _ m' => m' = m.cut i.b.cells ∨ m' = (m.cut i.b.cells).goto (Program.jumpTarget ip i.a))
    m.Quiet := by
  refine (read_any program m i.b).bind ?_
  rintro v _ ⟨rfl, -⟩
  split
  · refine (Leads.after (m.alike_cut _) (target_any program _ ip i.a)).bind ?_
    rintro _ _ ⟨rfl, rfl⟩
    exact Leads.of_ok rfl (.inr rfl)
  · exact Leads.of_ok rfl (.inl rfl)
  · exact Leads.after (m.alike_cut _) (Leads.fault (by simp))

theorem makeFunction_any {a b c : Operand} : Leads (makeFunction program limits ip a b c) m
    (fun _ m' => m.Reworked Func.Any 0 1 m') m.Quiet := by
  refine (target_any program m ip a).bind ?_
  rintro _ m ⟨rfl, rfl⟩
  exact Leads.get (put_any limits m _)

theorem refuse_any {base : Nat} (hb : base ≤ m.active.stack.size) (v : Value) :
    Leads (refuse limits base v) m
      (fun _ m' => m.Reworked Func.Any (m.active.stack.size - base) 1 m') m.Quiet := by
  refine Leads.bind (P := fun _ m' => m' = _) (Leads.of_ok (truncate_eq base hb) rfl) ?_
  rintro _ _ rfl
  exact pushed_any _ _

/-- A call enters a function, or is refused. -/
theorem call_any : Leads (call program limits i.a i.b) m
    (fun _ m' => m.Reworked Func.Any (i.b.cells + i.a.address.toNat) 1 m' ∨
      ∃ (f : Func) (args : Array Value), m.value? program i.b = some (.function f) ∧
        args.size = f.params ∧ m' = ⟨(m.active.swap i.b.cells #[]).enter f
          (m.active.stack.size - (i.b.cells + i.a.address.toNat)) m.heap.size, m.consumers,
          m.globals, m.heap.push (Frame.ofArgs args f.frameSize), m.console, m.journal⟩)
    m.Quiet := by
  refine (read_any program m i.b).bind ?_
  rintro callee _ ⟨rfl, hval⟩
  refine Leads.get ?_
  dsimp only
  have hsize := size_cut (m := m) (n := i.b.cells)
  split
  · exact Leads.after (m.alike_cut _) (Leads.fault (by simp))
  · next hargs =>
    have hrefuse : ∀ w : Value, Leads (refuse limits
        ((m.cut i.b.cells).active.stack.size - i.a.address.toNat) w) (m.cut i.b.cells)
        (fun _ m' => m.Reworked Func.Any (i.b.cells + i.a.address.toNat) 1 m') m.Quiet := by
      intro w
      refine (Leads.after (m.alike_cut _) (refuse_any (m := m.cut i.b.cells) (by omega) w)).mono
        ?_ fun _ _ h => h
      rintro _ m' ⟨vs, g, h, co, hk, hvs, rfl, hmem⟩
      refine ⟨vs, g, h, co, hk, hvs, ?_, hmem⟩
      show Machine.mk ((m.active.swap i.b.cells #[]).swap _ vs) _ _ _ _ _ = _
      rw [Context.swap_swap, show i.b.cells + ((m.cut i.b.cells).active.stack.size -
        ((m.cut i.b.cells).active.stack.size - i.a.address.toNat)) =
          i.b.cells + i.a.address.toNat by omega]
      rfl
    split
    · next f =>
      split
      · exact (hrefuse _).mono (fun _ _ h => .inl h) fun _ _ h => h
      · next harity =>
        refine Leads.get ?_
        split
        · exact Leads.after (m.alike_cut _) (Leads.fault (by simp))
        · have hbase : (m.cut i.b.cells).active.stack.size - i.a.address.toNat =
              m.active.stack.size - (i.b.cells + i.a.address.toNat) := by omega
          rw [hbase]
          refine Leads.of_ok rfl (.inr ⟨f, _, hval, ?_, rfl⟩)
          have hcut : (m.active.swap i.b.cells #[]).stack.size = m.active.stack.size - i.b.cells :=
            hsize
          rw [Array.size_extract]
          omega
    · exact (hrefuse _).mono (fun _ _ h => .inl h) fun _ _ h => h
    · exact (hrefuse _).mono (fun _ _ h => .inl h) fun _ _ h => h

/-! ## Returns and switches -/

theorem Leads.misused {α : Type} {Q : α → Machine → Prop} {u : Misuse} (hr : i.effect ≠ .ret)
    (hm : m.Alike m₁) (hu : m.Misused i u) :
    Leads (throw (.contextMisuse u)) m₁ Q (m.Failed program i) := by
  refine Leads.of_error rfl ⟨.inl hm, ?_, fun he => absurd he hr⟩
  rintro _ ⟨⟩
  exact hu

theorem ret_any (he : i.effect = .ret) :
    Leads (ret program limits m.active.ip i.b) (m.goto (m.active.ip + 1))
      (fun _ m' => Move program Func.Any i m m') (m.Failed program i) := by
  have htakes : i.takes = i.b.cells := by rw [Instruction.takes, he]
  obtain ⟨c, cs, g, h, co, j⟩ := m
  have hcut : Machine.Alike ⟨c, cs, g, h, co, j⟩
      (Machine.cut (Machine.goto ⟨c, cs, g, h, co, j⟩ (c.ip + 1)) i.b.cells) :=
    (Machine.alike_goto _ _).trans (Machine.alike_cut _ _)
  refine Leads.bind ((fetch_any program (Machine.goto ⟨c, cs, g, h, co, j⟩ (c.ip + 1)) i.b).mono
    (fun _ _ h => h) ?_) ?_
  · rintro cause _ ⟨rfl, hc, hmissing⟩
    exact ⟨.inl (Machine.alike_goto _ _), fun u hu => absurd hu (hc u),
      fun _ hf => .inl (hmissing hf)⟩
  rintro v _ ⟨rfl, hval⟩
  refine Leads.get ?_
  dsimp only [Machine.cut, Machine.goto]
  have hleft : ∀ {α : Type} {Q : α → Machine → Prop}, Leads (throw .returnOutsideCall)
      (Machine.cut (Machine.goto ⟨c, cs, g, h, co, j⟩ (c.ip + 1)) i.b.cells) Q
      (Machine.Failed program i ⟨c, cs, g, h, co, j⟩) :=
    Leads.of_error rfl ⟨.inl hcut, by simp, by simp⟩
  cases hl : leaveProducers (Context.swap { c with ip := c.ip + 1 } i.b.cells #[]) cs 0 with
  | none => exact hleft
  | some left =>
    obtain ⟨c', cs', gone⟩ := left
    dsimp only
    cases hcall : c'.calls.back? with
    | none => exact hleft
    | some r =>
      dsimp only
      have hl' : leaveProducers ((c.moved (c.ip + 1)).swap i.takes #[]) cs 0 =
          some (c', cs', gone) := htakes ▸ hl
      have hmove : ∀ j', Move program Func.Any i ⟨c, cs, g, h, co, j⟩
          ⟨((c'.leave r).moved r.returnIp).swap 0 #[v], cs', g, h, co, j'⟩ :=
        fun j' => .ret he hval v.allFunctions_any hl' hcall
      have halike : ∀ j', Machine.Alike
          ⟨((c'.leave r).moved r.returnIp).swap 0 #[v], cs', g, h, co, j'⟩
          ⟨c'.leave r, cs', g, h, co, j'⟩ := by
        refine fun j' => ⟨rfl, (c'.leave r).ip, (c'.leave r).stack, ?_⟩
        cases c'
        rfl
      have hdone : ∀ gone, Leads (do
          set (Machine.mk (c'.leave r) cs' g h co j)
          if 0 < gone then record (.unwound c.ip gone))
          (Machine.cut (Machine.goto ⟨c, cs, g, h, co, j⟩ (c.ip + 1)) i.b.cells)
          (fun _ m' => ∃ j', m' = ⟨c'.leave r, cs', g, h, co, j'⟩)
          (Machine.Failed program i ⟨c, cs, g, h, co, j⟩) :=
        fun gone => Leads.bind (P := fun _ m' => m' = ⟨c'.leave r, cs', g, h, co, j⟩)
          (Leads.of_ok rfl rfl) fun _ _ hm => hm ▸ record_leads _ _
      split
      · next hshort =>
        refine Leads.bind (hdone _) ?_
        rintro _ _ ⟨j', rfl⟩
        exact Leads.of_error rfl ⟨.inr ⟨_, hmove j', halike j'⟩, by simp,
          fun _ _ => .inr ⟨c', cs', gone, r, hl', hcall, hshort⟩⟩
      · refine Leads.bind (hdone _) ?_
        rintro _ _ ⟨j', rfl⟩
        refine Leads.bind (P := fun _ m' => m' = ⟨(c'.leave r).swap 0 #[v], cs', g, h, co, j'⟩)
          (push_leads.mono (fun _ _ h => h) ?_) ?_
        · rintro _ _ ⟨rfl, rfl⟩
          exact ⟨.inr ⟨_, hmove j', halike j'⟩, by simp, by simp⟩
        · rintro _ _ rfl
          exact Leads.of_ok rfl (hmove j')

theorem openGroup_any (he : i.effect = .openGroup) :
    Leads openGroup (m.goto (m.active.ip + 1)) (fun _ m' => Move program Func.Any i m m')
      (m.Failed program i) := by
  obtain ⟨c, cs, g, h, co, j⟩ := m
  exact Leads.of_ok rfl (.openGroup he)

theorem closeGroup_any (he : i.effect = .closeGroup) :
    Leads (closeGroup ip) (m.goto (m.active.ip + 1)) (fun _ m' => Move program Func.Any i m m')
      (m.Failed program i) := by
  have hr : i.effect ≠ .ret := by rw [he]; simp
  obtain ⟨c, cs, g, h, co, j⟩ := m
  refine Leads.get ?_
  dsimp only [Machine.goto]
  cases hg : c.loops.back? with
  | none => exact Leads.misused hr (Machine.alike_goto _ _) ⟨he, hg⟩
  | some group =>
    refine Leads.bind (P := fun _ m' => m' = ⟨(c.moved (c.ip + 1)).closeGroup, cs, g, h, co, j⟩)
      (Leads.of_ok rfl rfl) ?_
    rintro _ _ rfl
    refine (record_leads _ _).mono ?_ fun _ _ h => h
    rintro _ _ ⟨j', rfl⟩
    exact .closeGroup he hg

theorem checkDepth_any : Leads (checkDepth limits) m (fun _ m' => m' = m) m.Quiet := by
  refine Leads.get ?_
  split
  · exact Leads.fault (by simp)
  · exact Leads.of_ok rfl rfl

theorem Leads.failed {α : Type} {x : Action α} {P : α → Machine → Prop} (hr : i.effect ≠ .ret)
    (hm : m.Alike m₁) (h : Leads x m₁ P m₁.Quiet) : Leads x m₁ P (m.Failed program i) :=
  h.mono (fun _ _ h => h) fun _ _ hq => (hq.of_alike hm).failed hr

theorem spawn_any (he : i.effect = .spawn) :
    Leads (spawn program limits m.active.ip i.a i.b) (m.goto (m.active.ip + 1))
      (fun _ m' => Move program Func.Any i m m') (m.Failed program i) := by
  have hr : i.effect ≠ .ret := by rw [he]; simp
  have hgoto := m.alike_goto (m.active.ip + 1)
  refine (Leads.failed hr hgoto checkDepth_any).bind ?_
  rintro _ _ rfl
  refine (Leads.failed hr hgoto (target_any program _ _ i.a)).bind ?_
  rintro _ _ ⟨rfl, rfl⟩
  refine (Leads.failed hr hgoto (target_any program _ _ i.b)).bind ?_
  rintro _ _ ⟨rfl, rfl⟩
  refine Leads.get ?_
  obtain ⟨c, cs, g, h, co, j⟩ := m
  dsimp only [Machine.goto]
  cases hg : c.loops.back? with
  | none => exact Leads.misused hr hgoto ⟨he, hg⟩
  | some group =>
    refine Leads.of_ok rfl ?_
    obtain ⟨cip, stack, frames, calls, loops, pending⟩ := c
    exact .spawn he hg

theorem resume_any (he : i.effect = .resume) :
    Leads (resume program limits m.active.ip i.a i.b) (m.goto (m.active.ip + 1))
      (fun _ m' => Move program Func.Any i m m') (m.Failed program i) := by
  have hr : i.effect ≠ .ret := by rw [he]; simp
  have hgoto := m.alike_goto (m.active.ip + 1)
  refine (Leads.failed hr hgoto checkDepth_any).bind ?_
  rintro _ _ rfl
  refine (Leads.failed hr hgoto (target_any program _ _ i.b)).bind ?_
  rintro _ _ ⟨rfl, rfl⟩
  refine Leads.get ?_
  obtain ⟨c, cs, g, h, co, j⟩ := m
  dsimp only [Machine.goto]
  split
  · next producer hp => exact Leads.of_ok rfl (.resume he hp)
  · next hp => exact Leads.misused hr hgoto ⟨he, hp⟩

theorem endIteration_any (he : i.effect = .endIteration) :
    Leads (endIteration ip) (m.goto (m.active.ip + 1))
      (fun _ m' => Move program Func.Any i m m') (m.Failed program i) := by
  have hr : i.effect ≠ .ret := by rw [he]; simp
  have hgoto := m.alike_goto (m.active.ip + 1)
  refine Leads.get ?_
  obtain ⟨c, cs, g, h, co, j⟩ := m
  dsimp only [Machine.goto]
  cases hc : cs.back? with
  | none => exact Leads.misused hr hgoto ⟨he, hc⟩
  | some consumer =>
    dsimp only
    cases hp : consumer.pending with
    | none => exact Leads.misused hr hgoto ⟨.inr he, consumer, hc, hp⟩
    | some p => exact Leads.of_ok rfl (.endIteration he hc hp)

theorem yield_any (he : i.effect = .yield) :
    Leads (yield program limits m.active.ip i.b) (m.goto (m.active.ip + 1))
      (fun _ m' => Move program Func.Any i m m') (m.Failed program i) := by
  have hr : i.effect ≠ .ret := by rw [he]; simp
  have htakes : i.takes = i.b.cells := by rw [Instruction.takes, he]
  obtain ⟨c, cs, g, h, co, j⟩ := m
  have hgoto := Machine.alike_goto ⟨c, cs, g, h, co, j⟩ (c.ip + 1)
  have hcut := hgoto.trans (Machine.alike_cut _ i.b.cells)
  refine (Leads.failed hr hgoto (read_any program _ i.b)).bind ?_
  rintro v _ ⟨rfl, hval⟩
  refine Leads.get ?_
  dsimp only [Machine.cut, Machine.goto]
  cases hc : cs.back? with
  | none => exact Leads.misused hr hcut ⟨he, hc⟩
  | some consumer =>
    dsimp only
    cases hp : consumer.pending with
    | none => exact Leads.misused hr hcut ⟨.inl he, consumer, hc, hp⟩
    | some p =>
      dsimp only
      cases hs : consumer.slot? p.slot with
      | none => exact Leads.misused hr hcut ⟨he, consumer, p, hc, hp, hs⟩
      | some s =>
        have hmove : ∀ j', Move program Func.Any i ⟨c, cs, g, h, co, j⟩
            ⟨((consumer.setSlot p.slot (some ((c.moved (c.ip + 1)).swap i.b.cells
              #[]).awake)).awake).swap 0 #[v], cs.pop, g, h, co, j'⟩ := by
          rw [← htakes]
          exact fun j' => .yield he hval v.allFunctions_any hc hp hs
        refine (deliver_leads _).mono ?_ ?_
        · rintro _ _ ⟨j', rfl⟩
          exact hmove j'
        · rintro _ _ ⟨rfl, j', rfl⟩
          refine ⟨.inr ⟨_, hmove j', rfl, consumer.ip, consumer.stack, ?_⟩, by simp, by simp⟩
          cases consumer
          rfl

/-! ## All instructions -/

theorem stays_any {x : Action Unit} (hl : i.effect.IsLocal)
    (ht : i.Lands m.active.ip (m.active.ip + 1)) (h : Leads x (m.goto (m.active.ip + 1))
      (fun _ m' => (m.goto (m.active.ip + 1)).Reworked Func.Any i.takes i.gives m')
      (m.goto (m.active.ip + 1)).Quiet) :
    Leads x (m.goto (m.active.ip + 1)) (fun _ m' => Move program Func.Any i m m')
      (m.Failed program i) := by
  refine (Leads.failed ?_ (m.alike_goto _) h).mono
    (fun _ _ hw => (stay_of_reworked hl ht hw).2) fun _ _ h => h
  intro he
  rw [he] at hl
  exact hl

/-- A jump is a move that stays. -/
theorem jumps_any {t : Nat} (hl : i.effect.IsLocal) (ht : i.Lands m.active.ip t)
    (hk : i.gives = 0) : Move program Func.Any i m ((m.goto t).cut i.takes) := by
  refine (stay_of_reworked (F := Func.Any) hl ht ?_).2
  rw [hk]
  exact reworked_zero (Machine.memory_any _) _

/-- What executing an instruction did when it went well, and why it failed when it failed. -/
theorem execute_any (program : Program) (limits : Limits) (m : Machine) (i : Instruction) :
    Leads (execute program limits m.active.ip i) (m.goto (m.active.ip + 1))
      (m.Done program i) (m.Failed program i) := by
  rw [execute_eq]
  have hnext : ∀ {x : Action Unit}, Leads x (m.goto (m.active.ip + 1))
      (fun _ m' => Move program Func.Any i m m') (m.Failed program i) →
      Leads (do x; return Flow.next) (m.goto (m.active.ip + 1)) (m.Done program i)
        (m.Failed program i) :=
    fun hx => hx.bind fun _ _ h => Leads.of_ok rfl h
  have hstay : ∀ {x : Action Unit} {e : Effect}, i.effect = e → e.IsLocal →
      i.Lands m.active.ip (m.active.ip + 1) →
      Leads x (m.goto (m.active.ip + 1))
        (fun _ m' => (m.goto (m.active.ip + 1)).Reworked Func.Any i.takes i.gives m')
        (m.goto (m.active.ip + 1)).Quiet →
      Leads (do x; return Flow.next) (m.goto (m.active.ip + 1)) (m.Done program i)
        (m.Failed program i) :=
    fun he hl ht hx => hnext (stays_any (he ▸ hl) ht hx)
  have hjump := fun {t : Nat} => @jumps_any program m i t
  unfold Instruction.Lands Instruction.takes Instruction.gives at hstay hjump
  have hquiet : ∀ {α : Type} {x : Action α} {P : α → Machine → Prop}, i.effect ≠ .ret →
      Leads x (m.goto (m.active.ip + 1)) P (m.goto (m.active.ip + 1)).Quiet →
      Leads x (m.goto (m.active.ip + 1)) P (m.Failed program i) :=
    fun hr => Leads.failed hr (m.alike_goto _)
  cases he : i.effect with
  | unary f =>
    rw [he] at hstay
    exact hstay rfl trivial rfl (unary_any f)
  | binary f =>
    rw [he] at hstay
    exact hstay rfl trivial rfl (binary_any f)
  | pop =>
    rw [he] at hstay
    exact hstay rfl trivial rfl popped_any
  | slice =>
    rw [he] at hstay
    exact hstay rfl trivial rfl slice_any
  | makeArray =>
    rw [he] at hstay
    exact hstay rfl trivial rfl makeArray_any
  | jump =>
    rw [he] at hquiet hjump
    show Leads (target program m.active.ip i.a >>= fun t => (do goto t; return Flow.next)) _ _ _
    refine (hquiet (by simp) (target_any program _ _ i.a)).bind ?_
    rintro _ _ ⟨rfl, rfl⟩
    have h := hjump trivial rfl rfl
    rw [Machine.cut_zero] at h
    exact hnext (Leads.of_ok rfl h)
  | jumpIfFalse =>
    rw [he] at hquiet hjump
    refine hnext ((hquiet (by simp) jumpIfFalse_any).mono ?_ fun _ _ h => h)
    rintro _ m' (rfl | rfl)
    · exact hjump trivial (.inl rfl) rfl
    · exact hjump trivial (.inr rfl) rfl
  | makeFunction =>
    rw [he] at hstay
    exact hstay rfl trivial rfl makeFunction_any
  | call =>
    rw [he] at hquiet
    refine hnext ((hquiet (by simp) call_any).mono ?_ fun _ _ h => h)
    rintro _ m' (h | ⟨f, args, hcallee, harity, rfl⟩)
    · exact (call_refused he h).2
    · exact call_enters he trivial hcallee harity
  | ret => exact hnext (ret_any he)
  | openGroup => exact hnext (openGroup_any he)
  | spawn => exact hnext (spawn_any he)
  | endIteration => exact hnext (endIteration_any he)
  | resume => exact hnext (resume_any he)
  | yield => exact hnext (yield_any he)
  | closeGroup => exact hnext (closeGroup_any he)
  | readLine =>
    rw [he] at hstay
    exact hstay rfl trivial rfl readLine_any
  | write ending =>
    rw [he] at hstay
    exact hstay rfl trivial rfl (write_effect_any ending)
  | exit =>
    rw [he] at hquiet
    refine (hquiet (by simp) (read_any program _ i.b)).bind ?_
    rintro v _ ⟨rfl, -⟩
    refine Leads.of_ok rfl ⟨he, ?_⟩
    rw [Instruction.takes, he]

end Action

/-! ## Steps -/

/-- What one step can come to, whatever the code. -/
inductive StepTaken (program : Program) (m : Machine) : Step → Prop
  | running {i : Instruction} {m' : Machine} : program.instruction? m.active.ip = some i →
      Move program Func.Any i m m' → StepTaken program m (.running m')
  | finished : program.instruction? m.active.ip = none → m.consumers = #[] →
      StepTaken program m (.finished (m.active.stack.back?.getD .nil) m)
  | exited {i : Instruction} {status : Int64} {m' : Machine} :
      program.instruction? m.active.ip = some i → i.effect = .exit →
      m'.consumers = m.consumers →
      m'.active = (m.active.moved (m.active.ip + 1)).swap i.takes #[] →
      StepTaken program m (.exited status m')
  | unread {cause : Cause} {m' : Machine} : program.instruction? m.active.ip = none →
      m' = m → (∀ u, cause = .contextMisuse u → u = .endInsideProducer) →
      StepTaken program m (.faulted ⟨cause, m.active.ip⟩ m')
  | failed {i : Instruction} {cause : Cause} {m' : Machine} :
      program.instruction? m.active.ip = some i → m.Failed program i cause m' →
      StepTaken program m (.faulted ⟨cause, m.active.ip⟩ m')

theorem Machine.Failed.of_journal {c : Context} {cs : Array Context} {g : Globals} {h : Heap}
    {co : Console} {j j' : Journal} (hf : Machine.Failed program i ⟨c, cs, g, h, co, j⟩ cause m') :
    Machine.Failed program i ⟨c, cs, g, h, co, j'⟩ cause m' :=
  ⟨hf.contexts.imp id fun ⟨m₁, hm, ha⟩ => ⟨m₁, hm.of_journal, ha⟩,
    fun u hu => by cases u <;> exact hf.misuse _ hu, hf.short⟩

theorem Machine.step_unread (hi : program.instruction? m.active.ip = none) :
    StepTaken program m (m.step program limits) := by
  have hi' := hi
  unfold Program.instruction? at hi'
  unfold Machine.step
  dsimp only
  cases hw : program.code[m.active.ip]? with
  | none =>
    dsimp only [Machine.finish]
    split
    · next hempty => exact .finished hi (Array.isEmpty_iff.1 hempty)
    · refine .unread hi rfl ?_
      rintro u ⟨⟩
      rfl
  | some w =>
    rw [hw] at hi'
    dsimp only at hi' ⊢
    cases hd : Instruction.decode w with
    | ok i =>
      rw [hd] at hi'
      cases hi'
    | error e =>
      refine .unread hi rfl ?_
      cases e <;> simp [DecodeError.cause]

/-- A step moves, exits, finishes, or fails for a reason the machine shows. -/
theorem Machine.step_taken (program : Program) (limits : Limits) (m : Machine) :
    StepTaken program m (m.step program limits) := by
  cases hi : program.instruction? m.active.ip with
  | none => exact Machine.step_unread hi
  | some i =>
    rw [Machine.step_eq hi]
    obtain ⟨c, cs, g, h, co, j⟩ := m
    obtain ⟨j', hj'⟩ : ∃ j', (if limits.trace then Machine.record ⟨c, cs, g, h, co, j⟩
        (.executing c.ip i cs.size) else ⟨c, cs, g, h, co, j⟩) = ⟨c, cs, g, h, co, j'⟩ := by
      split
      · exact ⟨_, rfl⟩
      · exact ⟨j, rfl⟩
    dsimp only at hj' ⊢
    rw [hj']
    have hleads := Action.execute_any program limits ⟨c, cs, g, h, co, j'⟩ i
    unfold Action.Leads at hleads
    dsimp only at hleads
    revert hleads
    cases Action.execute program limits c.ip i
      (Machine.goto ⟨c, cs, g, h, co, j'⟩ (c.ip + 1)) with
    | ok flow m' =>
      cases flow with
      | next => exact fun hm => .running hi hm.of_journal
      | exit status =>
        rintro ⟨he, rfl⟩
        exact .exited hi he rfl rfl
    | error cause m' => exact fun hf => .failed hi hf.of_journal

/-- The fault that a step ends with. -/
def Step.fault? : Step → Option Fault
  | .faulted fault _ => some fault
  | _ => none

theorem Step.eq_faulted {st : Step} {fault : Fault} (h : st.fault? = some fault) :
    st = .faulted fault st.machine := by
  cases st with
  | faulted f m =>
    cases h
    rfl
  | running m | finished v m | exited status m => cases h

/-- The value that a step finishes with. -/
def Step.value? : Step → Option Value
  | .finished v _ => some v
  | _ => none

theorem Step.eq_finished {st : Step} {v : Value} (h : st.value? = some v) :
    st = .finished v st.machine := by
  cases st with
  | finished w m =>
    cases h
    rfl
  | running m | exited status m | faulted f m => cases h

/-- A run that came to an end came to it by the last of its steps. -/
theorem Machine.run_isEnd {st : Step} (hrun : Machine.run program limits n m = st)
    (hst : st.isEnd) : ∃ k m₁, k < n ∧ Machine.run program limits k m = .running m₁ ∧
      m₁.step program limits = st := by
  induction n generalizing m with
  | zero =>
    subst hrun
    cases hst
  | succ n ih =>
    rw [Machine.run_succ] at hrun
    cases hstep : m.step program limits with
    | running m₁ =>
      rw [hstep] at hrun
      obtain ⟨k, m₂, hk, hrun₂, hstep₂⟩ := ih hrun
      refine ⟨k + 1, m₂, by omega, ?_, hstep₂⟩
      rw [Machine.run_succ, hstep]
      exact hrun₂
    | finished v m₁ | exited status m₁ | faulted fault m₁ =>
      rw [hstep] at hrun
      exact ⟨0, m, by omega, rfl, hstep.trans hrun⟩

/-- What holds before a run and is kept by every step holds after it. -/
theorem Machine.run_invariant {P : Machine → Prop} (h : P m)
    (hstep : ∀ m, P m → P (m.step program limits).machine) :
    P (Machine.run program limits n m).machine := by
  induction n generalizing m with
  | zero => exact h
  | succ n ih =>
    have h₁ := hstep m h
    rw [Machine.run_succ]
    cases hst : m.step program limits with
    | running m₁ =>
      rw [hst] at h₁
      exact ih h₁
    | finished v m₁ | exited status m₁ | faulted fault m₁ =>
      rw [hst] at h₁
      exact h₁

end YieldMachine
