import YieldMachine.Proofs.Machine.Action

/-!
# Moves

`Move program F i m m'` says all that executing `i` can do when it succeeds: one
constructor for each way contexts change. Memory, console and journal are left open
where an instruction may write them. `Ready` is what an instruction relies on, and
`Permitted` what it may fail with even so.

    execute_leads   a ready machine moves, exits, or fails with a permitted cause
-/

namespace YieldMachine

/-! ## Definitions -/

/-- Where a context goes on behind an instruction at `ip` that leaves it running. -/
def Instruction.Lands (i : Instruction) (ip t : Nat) : Prop :=
  match i.effect with
  | .jump => t = Program.jumpTarget ip i.a
  | .jumpIfFalse => t = ip + 1 ∨ t = Program.jumpTarget ip i.a
  | _ => t = ip + 1

/-- Can an effect leave everything but the place, the stack and memory as it is? -/
def Effect.IsLocal : Effect → Prop
  | .ret | .openGroup | .spawn | .endIteration | .resume | .yield | .closeGroup | .exit => False
  | _ => True

/-- What executing an instruction does when it succeeds. -/
inductive Move (program : Program) (F : Func → Prop) (i : Instruction) : Machine → Machine → Prop
  /-- The context goes on with other values on its stack. -/
  | stay {c : Context} {cs : Array Context} {t : Nat} {vs : Array Value} {g g' h h' co co' j j'}
      (local_ : i.effect.IsLocal) (lands : i.Lands c.ip t) (size : vs.size = i.gives)
      (values : ∀ v ∈ vs, v.AllFunctions F) (heap : h.Kept h') :
      Move program F i ⟨c, cs, g, h, co, j⟩ ⟨(c.moved t).swap i.takes vs, cs, g', h', co', j'⟩
  /-- A call enters the body of a function. -/
  | enter {c : Context} {cs : Array Context} {f : Func} {args : Array Value} {g h co j j'}
      (effect : i.effect = .call) (function : F f)
      (callee : Machine.value? program ⟨c, cs, g, h, co, j⟩ i.b = some (.function f))
      (arity : args.size = f.params) :
      Move program F i ⟨c, cs, g, h, co, j⟩
        ⟨((c.moved (c.ip + 1)).swap i.b.cells #[]).enter f (c.stack.size - i.takes) h.size,
          cs, g, h.push (Frame.ofArgs args f.frameSize), co, j'⟩
  /-- A return leaves the innermost call. -/
  | ret {c c' : Context} {cs cs' : Array Context} {gone : Nat} {r : CallRecord} {v : Value}
      {g h co j j'} (effect : i.effect = .ret)
      (value : Machine.value? program ⟨c, cs, g, h, co, j⟩ i.b = some v)
      (values : v.AllFunctions F)
      (leaves : Action.leaveProducers ((c.moved (c.ip + 1)).swap i.takes #[]) cs 0 =
        some (c', cs', gone))
      (record : c'.calls.back? = some r) :
      Move program F i ⟨c, cs, g, h, co, j⟩
        ⟨((c'.leave r).moved r.returnIp).swap 0 #[v], cs', g, h, co, j'⟩
  /-- A loop is opened. -/
  | openGroup {c : Context} {cs : Array Context} {g h co j j'} (effect : i.effect = .openGroup) :
      Move program F i ⟨c, cs, g, h, co, j⟩
        ⟨{ c.moved (c.ip + 1) with loops := c.loops.push #[] }, cs, g, h, co, j'⟩
  /-- A producer starts, and its consumer waits. -/
  | spawn {c : Context} {cs : Array Context} {group : Group} {g h co j j'}
      (effect : i.effect = .spawn) (innermost : c.loops.back? = some group) :
      Move program F i ⟨c, cs, g, h, co, j⟩
        ⟨.start (c.ip + 1) c.frames.addressable,
          cs.push ((c.openSlot.moved (Program.jumpTarget c.ip i.a)).waiting
            ⟨group.size, Program.jumpTarget c.ip i.b⟩), g, h, co, j'⟩
  /-- A producer is parked, and its consumer gets a value. -/
  | yield {c consumer : Context} {cs : Array Context} {p : Pending} {s : Option Context}
      {v : Value} {g h co j j'} (effect : i.effect = .yield)
      (value : Machine.value? program ⟨c, cs, g, h, co, j⟩ i.b = some v)
      (values : v.AllFunctions F) (innermost : cs.back? = some consumer)
      (waits : consumer.pending = some p) (slot : consumer.slot? p.slot = some s) :
      Move program F i ⟨c, cs, g, h, co, j⟩
        ⟨((consumer.setSlot p.slot
            (some ((c.moved (c.ip + 1)).swap i.takes #[]).awake)).awake).swap 0 #[v],
          cs.pop, g, h, co, j'⟩
  /-- A parked producer goes on, and its consumer waits. -/
  | resume {c producer : Context} {cs : Array Context} {g h co j j'}
      (effect : i.effect = .resume) (slot : c.slot? i.a.address.toNat = some (some producer)) :
      Move program F i ⟨c, cs, g, h, co, j⟩
        ⟨producer.awake,
          cs.push (((c.moved (c.ip + 1)).setSlot i.a.address.toNat none).waiting
            ⟨i.a.address.toNat, Program.jumpTarget c.ip i.b⟩), g, h, co, j'⟩
  /-- A producer comes to its end, and its consumer leaves the loop. -/
  | endIteration {c consumer : Context} {cs : Array Context} {p : Pending} {g h co j j'}
      (effect : i.effect = .endIteration) (innermost : cs.back? = some consumer)
      (waits : consumer.pending = some p) :
      Move program F i ⟨c, cs, g, h, co, j⟩
        ⟨(consumer.moved p.onDrop).awake, cs.pop, g, h, co, j'⟩
  /-- A loop is closed. -/
  | closeGroup {c : Context} {cs : Array Context} {group : Group} {g h co j j'}
      (effect : i.effect = .closeGroup) (innermost : c.loops.back? = some group) :
      Move program F i ⟨c, cs, g, h, co, j⟩
        ⟨(c.moved (c.ip + 1)).closeGroup, cs, g, h, co, j'⟩

/-- The function that an instruction at `ip` makes. -/
def Instruction.made (i : Instruction) (ip : Nat) (frames : Chain) : Func :=
  ⟨Program.jumpTarget ip i.a, i.b.address.toNat, i.c.address.toNat, frames.at? 0⟩

/-- What an instruction may fail with whatever code it stands in. -/
inductive Permitted (frames : Chain) (heap : Heap) (i : Instruction) : Cause → Prop
  | stackOverflow (limit : Nat) : Permitted frames heap i (.stackOverflow limit)
  | frameOverflow (limit : Nat) : Permitted frames heap i (.frameOverflow limit)
  | contextOverflow (limit : Nat) : Permitted frames heap i (.contextOverflow limit)
  | nonBoolCondition (found : Kind) : Permitted frames heap i (.nonBoolCondition found)
  | returnOutsideCall : Permitted frames heap i .returnOutsideCall
  | yieldOutsideProducer : Permitted frames heap i (.contextMisuse .yieldOutsideProducer)
  | missing {o : Operand} {cause : Cause} : o ∈ [i.a, i.b, i.c] → Missing frames heap o cause →
      Permitted frames heap i cause

/-- What an instruction relies on. -/
structure Machine.Ready (F : Func → Prop) (i : Instruction) (m : Machine) : Prop where
  takes : i.takes ≤ m.active.stack.size
  stack : m.active.Stack F
  memory : m.Memory F
  makes : i.effect = .makeFunction → F (i.made m.active.ip m.active.frames)
  spawns : i.effect = .spawn → ∃ group, m.active.loops.back? = some group
  closes : i.effect = .closeGroup → ∃ group, m.active.loops.back? = some group
  resumes : i.effect = .resume →
    ∃ producer, m.active.slot? i.a.address.toNat = some (some producer)
  yields : i.effect = .yield → ∀ consumer, m.consumers.back? = some consumer →
    ∃ p s, consumer.pending = some p ∧ consumer.slot? p.slot = some s
  ends : i.effect = .endIteration →
    ∃ consumer p, m.consumers.back? = some consumer ∧ consumer.pending = some p
  returns : i.effect = .ret → ∀ c cs gone r,
    Action.leaveProducers ((m.active.moved (m.active.ip + 1)).swap i.takes #[]) m.consumers 0 =
      some (c, cs, gone) → c.calls.back? = some r → c.lacksFrames r.frameDepth = false

/-! ## Instructions that stay in their context -/

/-- The machine with `n` values taken off the stack, `k` others put there, and whatever in
memory and console, in frames as large as they were. -/
def Machine.Reworked (F : Func → Prop) (n k : Nat) (m m' : Machine) : Prop :=
  ∃ (vs : Array Value) (g : Globals) (h : Heap) (co : Console), vs.size = k ∧
    (∀ v ∈ vs, v.AllFunctions F) ∧
    m' = ⟨m.active.swap n vs, m.consumers, g, h, co, m.journal⟩ ∧ m'.Memory F ∧ m.heap.Kept h

/-- The machine moved, and memory is as it should be. -/
def Moves (program : Program) (F : Func → Prop) (i : Instruction) (m m' : Machine) : Prop :=
  m'.Memory F ∧ Move program F i m m'

/-- A fault that is permitted, with memory as it should be and the heap as it was. -/
def Faults (F : Func → Prop) (m : Machine) (i : Instruction) (cause : Cause) (m' : Machine) :
    Prop :=
  m'.Memory F ∧ m'.heap = m.heap ∧ Permitted m.active.frames m.heap i cause

namespace Action

variable {F : Func → Prop} {program : Program} {limits : Limits} {m m₀ m' : Machine}
  {i : Instruction} {o : Operand} {v : Value} {n k ip : Nat}

theorem reworked_of_cut (h : (m.cut n).Reworked F 0 k m') : m.Reworked F n k m' := by
  obtain ⟨vs, g, hp, co, hk, hv, rfl, hmem⟩ := h
  refine ⟨vs, g, hp, co, hk, hv, ?_, hmem⟩
  show Machine.mk ((m.active.swap n #[]).swap 0 vs) _ _ _ _ _ = _
  rw [Context.swap_swap, Nat.add_zero]
  rfl

theorem read_leads (ho : o ∈ [i.a, i.b, i.c]) (hr : program.Readable o)
    (hc : o.cells ≤ m.active.stack.size) (hs : m.active.Stack F) (hm : m.Memory F) :
    Leads (fetch program o) m
      (fun v m' => m' = m.cut o.cells ∧ v.AllFunctions F ∧ m.value? program o = some v)
      (Faults F m i) :=
  (fetch_leads hr hc hs hm).mono (fun _ _ h => h)
    fun _ _ ⟨h, hm'⟩ => ⟨hm' ▸ hm, hm' ▸ rfl, .missing ho h⟩

theorem write_leads (ho : o ∈ [i.a, i.b, i.c]) (hw : program.Writable o) (hm : m.Memory F)
    (hv : v.AllFunctions F) :
    Leads (store program limits o v) m (fun _ m' => m.Reworked F 0 o.cells m')
      (Faults F m i) := by
  refine (store_leads hw hm hv).mono ?_ ?_
  · rintro _ m' ⟨g, h, rfl, hmem⟩
    exact ⟨_, g, h, m.console, o.size_received v, o.received_allFunctions hv, rfl, hmem⟩
  · rintro cause m' ⟨h, rfl⟩
    rcases h with rfl | h
    · exact ⟨hm, rfl, .stackOverflow _⟩
    · exact ⟨hm, rfl, .missing ho h⟩

theorem put_leads (hm : m.Memory F) (hv : v.AllFunctions F) :
    Leads (push limits v) m (fun _ m' => m.Reworked F 0 1 m') (Faults F m i) := by
  refine push_leads.mono ?_ ?_
  · rintro _ m' rfl
    refine ⟨#[v], m.globals, m.heap, m.console, rfl, ?_, rfl, ⟨hm.globals, hm.heap⟩, .refl _⟩
    intro w hw
    cases Array.mem_singleton.1 hw
    exact hv
  · rintro cause m' ⟨rfl, rfl⟩
    exact ⟨hm, rfl, .stackOverflow _⟩

theorem stack_cut (hs : m.active.Stack F) (n : Nat) : (m.cut n).active.Stack F :=
  hs.swap n (by simp)

theorem size_cut : (m.cut n).active.stack.size = m.active.stack.size - n := by
  show (m.active.swap n #[]).stack.size = _
  rw [Context.size_swap]
  rfl

theorem unary_leads {f : Value → Value} (hf : ∀ v, v.AllFunctions F → (f v).AllFunctions F)
    (hr : program.Readable i.b) (hw : program.Writable i.a)
    (hc : i.b.cells ≤ m.active.stack.size) (hs : m.active.Stack F) (hm : m.Memory F) :
    Leads (unary program limits i f) m (fun _ m' => m.Reworked F i.b.cells i.a.cells m')
      (Faults F m i) := by
  refine (read_leads (by simp) hr hc hs hm).bind ?_
  rintro v _ ⟨rfl, hv, -⟩
  exact (write_leads (by simp) hw (hm.cut _) (hf v hv)).mono
    (fun _ _ h => reworked_of_cut h) fun _ _ h => h

theorem cut_cut (a b : Nat) : (m.cut a).cut b = m.cut (a + b) := by
  show Machine.mk ((m.active.swap a #[]).swap b #[]) _ _ _ _ _ = _
  rw [Context.swap_swap]
  rfl

theorem binary_leads {f : Value → Value → Value}
    (hf : ∀ v w, v.AllFunctions F → w.AllFunctions F → (f v w).AllFunctions F)
    (hb : program.Readable i.b) (hr : program.Readable i.c) (hw : program.Writable i.a)
    (hc : i.b.cells + i.c.cells ≤ m.active.stack.size) (hs : m.active.Stack F) (hm : m.Memory F) :
    Leads (binary program limits i f) m
      (fun _ m' => m.Reworked F (i.b.cells + i.c.cells) i.a.cells m') (Faults F m i) := by
  refine (read_leads (by simp) hr (by omega) hs hm).bind ?_
  rintro right _ ⟨rfl, hright, -⟩
  refine (read_leads (m := m.cut _) (by simp) hb (by rw [size_cut]; omega) (stack_cut hs _)
    (hm.cut _)).bind ?_
  rintro left _ ⟨rfl, hleft, -⟩
  rw [cut_cut, Nat.add_comm]
  exact (write_leads (by simp) hw (hm.cut _) (hf left right hleft hright)).mono
    (fun _ _ h => reworked_of_cut h) fun _ _ h => h

theorem slice_leads (ha : program.Readable i.a) (hb : program.Readable i.b)
    (hr : program.Readable i.c)
    (hc : i.a.cells + i.b.cells + i.c.cells ≤ m.active.stack.size) (hs : m.active.Stack F)
    (hm : m.Memory F) :
    Leads (slice program limits i) m
      (fun _ m' => m.Reworked F (i.a.cells + i.b.cells + i.c.cells) 1 m') (Faults F m i) := by
  refine (read_leads (by simp) hr (by omega) hs hm).bind ?_
  rintro stop _ ⟨rfl, -, -⟩
  refine (read_leads (m := m.cut _) (by simp) hb (by rw [size_cut]; omega) (stack_cut hs _)
    (hm.cut _)).bind ?_
  rintro start _ ⟨rfl, -, -⟩
  rw [cut_cut]
  refine (read_leads (m := m.cut _) (by simp) ha (by rw [size_cut]; omega) (stack_cut hs _)
    (hm.cut _)).bind ?_
  rintro target _ ⟨rfl, htarget, -⟩
  rw [cut_cut, show i.c.cells + i.b.cells + i.a.cells = i.a.cells + i.b.cells + i.c.cells by omega]
  exact (put_leads (hm.cut _) (Value.slice_allFunctions start stop htarget)).mono
    (fun _ _ h => reworked_of_cut h) fun _ _ h => h

theorem extract_allFunctions (hs : m.active.Stack F) (start stop : Nat) :
    ∀ v ∈ m.active.stack.extract start stop, v.AllFunctions F := by
  intro v hv
  obtain ⟨_, _, rfl⟩ := Array.mem_extract_iff_getElem.1 hv
  exact hs _ (Array.getElem_mem _)

theorem truncate_eq (height : Nat) (h : height ≤ m.active.stack.size) :
    truncate height m = .ok () (m.cut (m.active.stack.size - height)) := by
  show EStateM.Result.ok () _ = _
  simp only [Machine.cut, Context.swap, Array.append_empty]
  rw [show m.active.stack.size - (m.active.stack.size - height) = height by omega]

theorem makeArray_leads (hn : 0 ≤ i.b.address) (hw : program.Writable i.a)
    (hc : i.b.address.toNat ≤ m.active.stack.size) (hs : m.active.Stack F) (hm : m.Memory F) :
    Leads (makeArray program limits i) m
      (fun _ m' => m.Reworked F i.b.address.toNat i.a.cells m') (Faults F m i) := by
  refine Leads.get ?_
  dsimp only
  rw [if_pos (by omega)]
  refine (Leads.of_ok (truncate_eq _ (Nat.sub_le _ _)) rfl).bind (P := fun _ m' => m' = _) ?_
  rintro _ _ rfl
  rw [show m.active.stack.size - (m.active.stack.size - i.b.address.toNat) =
    i.b.address.toNat by omega]
  exact (write_leads (by simp) hw (hm.cut _)
    (Value.allFunctions_array.2 (extract_allFunctions hs _ _))).mono
    (fun _ _ h => reworked_of_cut h) fun _ _ h => h

theorem readLine_leads (hw : program.Writable i.a) (hm : m.Memory F) :
    Leads (readLine program limits i) m (fun _ m' => m.Reworked F 0 i.a.cells m')
      (Faults F m i) := by
  obtain ⟨c, cs, g, h, co, j⟩ := m
  refine Leads.bind (P := fun _ m' => m' = ⟨c, cs, g, h, co.read.2, j⟩)
    (Leads.of_ok rfl rfl) ?_
  rintro line _ rfl
  refine write_leads (m := ⟨c, cs, g, h, co.read.2, j⟩) (by simp) hw ⟨hm.globals, hm.heap⟩ ?_
  cases line <;> trivial

theorem write_effect_leads (ending : String) (hr : program.Readable i.b)
    (hw : program.Writable i.a) (hc : i.b.cells ≤ m.active.stack.size) (hs : m.active.Stack F)
    (hm : m.Memory F) :
    Leads (write program limits i ending) m
      (fun _ m' => m.Reworked F i.b.cells i.a.cells m') (Faults F m i) := by
  refine (read_leads (by simp) hr hc hs hm).bind ?_
  rintro v _ ⟨rfl, hv, -⟩
  obtain ⟨c, cs, g, h, co, j⟩ := m
  refine Leads.bind (P := fun _ m' => m' = ⟨c.swap i.b.cells #[], cs, g, h,
    co.write (v.text ++ ending), j⟩) (Leads.of_ok rfl rfl) ?_
  rintro _ _ rfl
  refine (write_leads (m := ⟨c.swap i.b.cells #[], cs, g, h, co.write (v.text ++ ending), j⟩)
    (v := .nil) (by simp) hw ⟨hm.globals, hm.heap⟩ trivial).mono ?_ fun _ _ h => h
  rintro _ _ ⟨vs, g', h', co', hk, hv', rfl, hmem⟩
  refine ⟨vs, g', h', co', hk, hv', ?_, hmem⟩
  show Machine.mk ((c.swap i.b.cells #[]).swap 0 vs) _ _ _ _ _ = _
  rw [Context.swap_swap]
  rfl

/-! ## Jumps and calls -/

theorem jumpIfFalse_leads (hr : program.Readable i.b) (hj : program.InRange ip i.a)
    (hc : i.b.cells ≤ m.active.stack.size) (hs : m.active.Stack F) (hm : m.Memory F) :
    Leads (jumpIfFalse program ip i) m
      (fun _ m' => m' = m.cut i.b.cells ∨
        m' = (m.cut i.b.cells).goto (Program.jumpTarget ip i.a)) (Faults F m i) := by
  refine (read_leads (by simp) hr hc hs hm).bind ?_
  rintro v _ ⟨rfl, -, -⟩
  split
  · rw [target_eq hj, pure_bind]
    exact Leads.of_ok rfl (.inr rfl)
  · exact Leads.of_ok rfl (.inl rfl)
  · exact Leads.of_error rfl ⟨hm.cut _, rfl, .nonBoolCondition _⟩

theorem makeFunction_leads (hj : program.InRange ip i.a)
    (hf : F (i.made ip m.active.frames)) (hm : m.Memory F) :
    Leads (makeFunction program limits ip i.a i.b i.c) m (fun _ m' => m.Reworked F 0 1 m')
      (Faults F m i) := by
  unfold makeFunction
  rw [target_eq hj, pure_bind]
  refine Leads.get ?_
  exact put_leads hm hf

theorem refuse_leads {base : Nat} (hb : base ≤ m.active.stack.size) (hv : v.AllFunctions F)
    (hm : m.Memory F) :
    Leads (refuse limits base v) m
      (fun _ m' => m.Reworked F (m.active.stack.size - base) 1 m') (Faults F m i) := by
  refine Leads.bind (P := fun _ m' => m' = _) (Leads.of_ok (truncate_eq base hb) rfl) ?_
  rintro _ _ rfl
  exact (put_leads (hm.cut _) hv).mono (fun _ _ h => reworked_of_cut h) fun _ _ h => h

theorem ofArgs_allFunctions {args : Array Value} (size : Nat)
    (h : ∀ v ∈ args, v.AllFunctions F) : ∀ v ∈ Frame.ofArgs args size, v.AllFunctions F := by
  intro v hv
  rcases Array.mem_append.1 hv with hv | hv
  · exact h v hv
  · rw [(Array.mem_replicate.1 hv).2]
    trivial

theorem enter_leads {f : Func} {base : Nat} (hs : m.active.Stack F) (hm : m.Memory F) :
    Leads (enter f base) m
      (fun _ m' => m'.Memory F ∧ m' = ⟨m.active.enter f base m.heap.size, m.consumers, m.globals,
        m.heap.push (Frame.ofArgs (m.active.stack.extract base m.active.stack.size) f.frameSize),
        m.console, m.journal⟩) (Faults F m i) := by
  obtain ⟨c, cs, g, h, co, j⟩ := m
  refine Leads.of_ok rfl ⟨⟨hm.globals, ?_⟩, rfl⟩
  intro frame hf
  rcases Array.mem_push.1 hf with hf | rfl
  · exact hm.heap frame hf
  · exact ofArgs_allFunctions _ (extract_allFunctions (m := ⟨c, cs, g, h, co, j⟩) hs _ _)

/-- A call enters a function that the machine trusts, or is refused. -/
theorem call_leads (hr : program.Readable i.b)
    (hc : i.b.cells + i.a.address.toNat ≤ m.active.stack.size) (hs : m.active.Stack F)
    (hm : m.Memory F) :
    Leads (call program limits i.a i.b) m
      (fun _ m' => m.Reworked F (i.b.cells + i.a.address.toNat) 1 m' ∨
        m'.Memory F ∧ ∃ (f : Func) (args : Array Value), F f ∧
          m.value? program i.b = some (.function f) ∧ args.size = f.params ∧
          m' = ⟨(m.active.swap i.b.cells #[]).enter f
            (m.active.stack.size - (i.b.cells + i.a.address.toNat)) m.heap.size, m.consumers,
            m.globals, m.heap.push (Frame.ofArgs args f.frameSize), m.console, m.journal⟩)
      (Faults F m i) := by
  refine (read_leads (by simp) hr (by omega) hs hm).bind ?_
  rintro callee _ ⟨rfl, hv, hval⟩
  refine Leads.get ?_
  have hsize := size_cut (m := m) (n := i.b.cells)
  rw [if_neg (by omega)]
  have hbase : (m.cut i.b.cells).active.stack.size - i.a.address.toNat =
      m.active.stack.size - (i.b.cells + i.a.address.toNat) := by omega
  rw [hbase]
  have hrefuse : ∀ w : Value, w.AllFunctions F →
      Leads (refuse limits (m.active.stack.size - (i.b.cells + i.a.address.toNat)) w)
        (m.cut i.b.cells)
        (fun _ m' => m.Reworked F (i.b.cells + i.a.address.toNat) 1 m') (Faults F m i) := by
    intro w hw
    refine (refuse_leads (m := m.cut i.b.cells) (by omega) hw (hm.cut _)).mono ?_ fun _ _ h => h
    rintro _ m' ⟨vs, g, h, co, hk, hvs, rfl, hmem⟩
    refine ⟨vs, g, h, co, hk, hvs, ?_, hmem⟩
    show Machine.mk ((m.active.swap i.b.cells #[]).swap _ vs) _ _ _ _ _ = _
    rw [Context.swap_swap, hsize]
    rw [show i.b.cells + (m.active.stack.size - i.b.cells -
      (m.active.stack.size - (i.b.cells + i.a.address.toNat))) =
        i.b.cells + i.a.address.toNat by omega]
    rfl
  split
  · next f =>
    split
    · exact (hrefuse _ (ValueError.allFunctions_value _)).mono (fun _ _ h => .inl h)
        fun _ _ h => h
    · next harity =>
      refine Leads.get ?_
      split
      · exact Leads.of_error rfl ⟨hm.cut _, rfl, .frameOverflow _⟩
      · refine (enter_leads (stack_cut hs _) (hm.cut _)).mono ?_ fun _ _ h => h
        rintro _ m' ⟨hmem, rfl⟩
        refine .inr ⟨hmem, f, _, hv, hval, ?_, rfl⟩
        rw [Array.size_extract]
        omega
  · exact (hrefuse _ (Value.allFunctions_error _)).mono (fun _ _ h => .inl h) fun _ _ h => h
  · exact (hrefuse _ (ValueError.allFunctions_value _)).mono (fun _ _ h => .inl h) fun _ _ h => h

/-! ## Returns and switches -/

theorem record_leads (e : Event) (gone : Nat) {c : Context} {cs : Array Context} {g : Globals}
    {h : Heap} {co : Console} {j : Journal} {E : Cause → Machine → Prop} :
    Leads (if 0 < gone then record e else pure ()) ⟨c, cs, g, h, co, j⟩
      (fun _ m' => ∃ j', m' = ⟨c, cs, g, h, co, j'⟩) E := by
  split
  · exact Leads.of_ok rfl ⟨_, rfl⟩
  · exact Leads.of_ok rfl ⟨j, rfl⟩

theorem ret_leads (he : i.effect = .ret) (hr : program.Readable i.b) (hm : m.Ready F i) :
    Leads (ret program limits m.active.ip i.b) (m.goto (m.active.ip + 1))
      (fun _ m' => Moves program F i m m') (Faults F m i) := by
  have htakes : i.takes = i.b.cells := by rw [Instruction.takes, he]
  obtain ⟨c, cs, g, h, co, j⟩ := m
  have hmem : ∀ {c' cs' j'}, Machine.Memory F ⟨c', cs', g, h, co, j'⟩ :=
    ⟨hm.memory.globals, hm.memory.heap⟩
  refine (read_leads (m := ⟨c.moved (c.ip + 1), cs, g, h, co, j⟩) (i := i) (by simp) hr
    (htakes ▸ hm.takes) hm.stack hmem).bind ?_
  rintro v _ ⟨rfl, hv, hval⟩
  refine Leads.get ?_
  have hreturns := hm.returns he
  rw [htakes] at hreturns
  dsimp only at hreturns
  dsimp only [Machine.cut]
  cases hl : leaveProducers ((c.moved (c.ip + 1)).swap i.b.cells #[]) cs 0 with
  | none => exact Leads.of_error rfl ⟨hmem, rfl, .returnOutsideCall⟩
  | some left =>
    obtain ⟨c', cs', gone⟩ := left
    dsimp only
    cases hcall : c'.calls.back? with
    | none => exact Leads.of_error rfl ⟨hmem, rfl, .returnOutsideCall⟩
    | some r =>
      dsimp only
      rw [hreturns c' cs' gone r hl hcall]
      simp only [Bool.false_eq_true, if_false]
      refine Leads.bind (P := fun _ m' => ∃ j', m' = ⟨c'.leave r, cs', g, h, co, j'⟩) ?_ ?_
      · exact Leads.bind (P := fun _ m' => m' = ⟨c'.leave r, cs', g, h, co, j⟩)
          (Leads.of_ok rfl rfl) fun _ _ h => h ▸ record_leads _ _
      · rintro _ _ ⟨j', rfl⟩
        refine Leads.bind (P := fun _ m' => m' = ⟨(c'.leave r).swap 0 #[v], cs', g, h, co, j'⟩)
          (push_leads.mono (fun _ _ h => h) ?_) ?_
        · rintro _ _ ⟨rfl, rfl⟩
          exact ⟨hmem, rfl, .stackOverflow _⟩
        · rintro _ _ rfl
          refine Leads.of_ok rfl ⟨hmem, ?_⟩
          exact Move.ret he hval hv (htakes ▸ hl) hcall

theorem openGroup_leads (he : i.effect = .openGroup) (hm : m.Memory F) :
    Leads openGroup (m.goto (m.active.ip + 1)) (fun _ m' => Moves program F i m m')
      (Faults F m i) := by
  obtain ⟨c, cs, g, h, co, j⟩ := m
  exact Leads.of_ok rfl ⟨⟨hm.globals, hm.heap⟩, .openGroup he⟩

theorem closeGroup_leads (he : i.effect = .closeGroup) (hm : m.Ready F i) :
    Leads (closeGroup ip) (m.goto (m.active.ip + 1)) (fun _ m' => Moves program F i m m')
      (Faults F m i) := by
  obtain ⟨c, cs, g, h, co, j⟩ := m
  obtain ⟨group, hg⟩ := hm.closes he
  refine Leads.get ?_
  dsimp only [Machine.goto]
  rw [show c.loops.back? = some group from hg]
  refine Leads.bind (P := fun _ m' => m' = ⟨(c.moved (c.ip + 1)).closeGroup, cs, g, h, co, j⟩)
    (Leads.of_ok rfl rfl) ?_
  rintro _ _ rfl
  refine (record_leads _ _).mono ?_ fun _ _ h => h
  rintro _ _ ⟨j', rfl⟩
  exact ⟨⟨hm.memory.globals, hm.memory.heap⟩, .closeGroup he hg⟩

theorem checkDepth_leads (hm : m.Memory F) :
    Leads (checkDepth limits) m (fun _ m' => m' = m) (Faults F m i) := by
  refine Leads.get ?_
  split
  · exact Leads.of_error rfl ⟨hm, rfl, .contextOverflow _⟩
  · exact Leads.of_ok rfl rfl

theorem spawn_leads (he : i.effect = .spawn) (ha : program.InRange m.active.ip i.a)
    (hb : program.InRange m.active.ip i.b) (hm : m.Ready F i) :
    Leads (spawn program limits m.active.ip i.a i.b) (m.goto (m.active.ip + 1))
      (fun _ m' => Moves program F i m m') (Faults F m i) := by
  obtain ⟨c, cs, g, h, co, j⟩ := m
  have hmem : ∀ {c' cs' j'}, Machine.Memory F ⟨c', cs', g, h, co, j'⟩ :=
    ⟨hm.memory.globals, hm.memory.heap⟩
  obtain ⟨group, hg⟩ := hm.spawns he
  refine (checkDepth_leads (i := i) hmem).bind ?_
  rintro _ _ rfl
  rw [target_eq ha, pure_bind, target_eq hb, pure_bind]
  refine Leads.get ?_
  dsimp only [Machine.goto]
  rw [show c.loops.back? = some group from hg]
  refine Leads.of_ok rfl ⟨⟨hm.memory.globals, hm.memory.heap⟩, ?_⟩
  obtain ⟨cip, stack, frames, calls, loops, pending⟩ := c
  exact .spawn he hg

theorem resume_leads (he : i.effect = .resume) (hb : program.InRange m.active.ip i.b)
    (hm : m.Ready F i) :
    Leads (resume program limits m.active.ip i.a i.b) (m.goto (m.active.ip + 1))
      (fun _ m' => Moves program F i m m') (Faults F m i) := by
  obtain ⟨c, cs, g, h, co, j⟩ := m
  have hmem : ∀ {c' cs' j'}, Machine.Memory F ⟨c', cs', g, h, co, j'⟩ :=
    ⟨hm.memory.globals, hm.memory.heap⟩
  obtain ⟨producer, hp⟩ := hm.resumes he
  refine (checkDepth_leads (i := i) hmem).bind ?_
  rintro _ _ rfl
  rw [target_eq hb, pure_bind]
  refine Leads.get ?_
  dsimp only [Machine.goto]
  rw [show Context.slot? { c with ip := c.ip + 1 } i.a.address.toNat = some (some producer) from hp]
  exact Leads.of_ok rfl ⟨hmem, .resume he hp⟩

theorem endIteration_leads (he : i.effect = .endIteration) (hm : m.Ready F i) :
    Leads (endIteration ip) (m.goto (m.active.ip + 1)) (fun _ m' => Moves program F i m m')
      (Faults F m i) := by
  obtain ⟨c, cs, g, h, co, j⟩ := m
  obtain ⟨consumer, p, hc, hp⟩ := hm.ends he
  refine Leads.get ?_
  dsimp only [Machine.goto]
  rw [show cs.back? = some consumer from hc]
  dsimp only
  rw [hp]
  exact Leads.of_ok rfl ⟨⟨hm.memory.globals, hm.memory.heap⟩, .endIteration he hc hp⟩

theorem yield_leads (he : i.effect = .yield) (hr : program.Readable i.b) (hm : m.Ready F i) :
    Leads (yield program limits m.active.ip i.b) (m.goto (m.active.ip + 1))
      (fun _ m' => Moves program F i m m') (Faults F m i) := by
  have htakes : i.takes = i.b.cells := by rw [Instruction.takes, he]
  obtain ⟨c, cs, g, h, co, j⟩ := m
  have hmem : ∀ {c' cs' j'}, Machine.Memory F ⟨c', cs', g, h, co, j'⟩ :=
    ⟨hm.memory.globals, hm.memory.heap⟩
  refine (read_leads (m := ⟨c.moved (c.ip + 1), cs, g, h, co, j⟩) (i := i) (by simp) hr
    (htakes ▸ hm.takes) hm.stack hmem).bind ?_
  rintro v _ ⟨rfl, hv, hval⟩
  refine Leads.get ?_
  dsimp only [Machine.cut]
  cases hcs : cs.back? with
  | none => exact Leads.of_error rfl ⟨hmem, rfl, .yieldOutsideProducer⟩
  | some consumer =>
    obtain ⟨p, s, hp, hslot⟩ := hm.yields he consumer hcs
    dsimp only
    rw [hp]
    dsimp only
    rw [hslot]
    dsimp only
    refine (deliver_leads _).mono ?_ ?_
    · rintro _ _ ⟨j', rfl⟩
      refine ⟨hmem, ?_⟩
      rw [← htakes]
      exact .yield he hval hv hcs hp hslot
    · rintro _ _ ⟨rfl, j', rfl⟩
      exact ⟨hmem, rfl, .stackOverflow _⟩

/-! ## All instructions -/

/-- What was reworked in place is a move that stays. -/
theorem stay_of_reworked {t : Nat} (hl : i.effect.IsLocal) (ht : i.Lands m.active.ip t)
    (h : (m.goto t).Reworked F i.takes i.gives m') : Moves program F i m m' := by
  obtain ⟨c, cs, g, hp, co, j⟩ := m
  obtain ⟨vs, g', h', co', hk, hv, rfl, hmem, hheap⟩ := h
  exact ⟨hmem, .stay hl ht hk hv hheap⟩

theorem reworked_zero (hm : m.Memory F) (n : Nat) : m.Reworked F n 0 (m.cut n) :=
  ⟨#[], m.globals, m.heap, m.console, rfl, by simp, rfl, ⟨hm.globals, hm.heap⟩, .refl _⟩

theorem pop_leads (h : 1 ≤ m.active.stack.size) (hm : m.Memory F) :
    Leads (discard pop) m (fun _ m' => m.Reworked F 1 0 m') (Faults F m i) := by
  have hback : m.active.stack.back? = some m.active.stack[m.active.stack.size - 1] := by
    rw [Array.back?, Array.getElem?_eq_getElem]
  refine Leads.of_ok (?_ : discard pop m = .ok () (m.cut 1)) (reworked_zero hm 1)
  show EStateM.map _ pop m = _
  unfold EStateM.map
  rw [pop_eq hback]

/-- An action that only reworks the machine is a move that stays. -/
theorem stay_leads {x : Action Unit} {E : Cause → Machine → Prop} (hl : i.effect.IsLocal)
    (ht : i.Lands m.active.ip (m.active.ip + 1))
    (hx : Leads x (m.goto (m.active.ip + 1))
      (fun _ m' => (m.goto (m.active.ip + 1)).Reworked F i.takes i.gives m') E) :
    Leads x (m.goto (m.active.ip + 1)) (fun _ m' => Moves program F i m m') E :=
  hx.mono (fun _ _ h => stay_of_reworked hl ht h) fun _ _ h => h

theorem jump_moves (he : i.effect = .jump) (hj : program.InRange m.active.ip i.a)
    (hm : m.Memory F) :
    Leads (target program m.active.ip i.a >>= goto) (m.goto (m.active.ip + 1))
      (fun _ m' => Moves program F i m m') (Faults F m i) := by
  rw [target_eq hj, pure_bind]
  refine Leads.of_ok rfl (stay_of_reworked (t := Program.jumpTarget m.active.ip i.a)
    (he ▸ trivial) (by rw [Instruction.Lands, he]) ?_)
  have h := reworked_zero (m := m.goto (Program.jumpTarget m.active.ip i.a)) (F := F)
    ⟨hm.globals, hm.heap⟩ 0
  rw [Machine.cut_zero] at h
  rw [Instruction.takes, Instruction.gives, he]
  exact h

/-- A conditional jump takes its condition off the stack wherever it lands. -/
theorem jumpIfFalse_moves (he : i.effect = .jumpIfFalse) (hr : program.Readable i.b)
    (hj : program.InRange m.active.ip i.a) (hc : i.b.cells ≤ m.active.stack.size)
    (hs : m.active.Stack F) (hm : m.Memory F) :
    Leads (jumpIfFalse program m.active.ip i) (m.goto (m.active.ip + 1))
      (fun _ m' => Moves program F i m m') (Faults F m i) := by
  have hmem : ∀ t, (m.goto t).Memory F := fun _ => ⟨hm.globals, hm.heap⟩
  have hmoves : ∀ {t}, i.Lands m.active.ip t →
      Moves program F i m ((m.goto t).cut i.b.cells) := by
    intro t ht
    refine stay_of_reworked (t := t) (he ▸ trivial) ht ?_
    rw [Instruction.takes, Instruction.gives, he]
    exact reworked_zero (hmem t) i.b.cells
  refine (jumpIfFalse_leads (m := m.goto _) hr hj hc hs (hmem _)).mono ?_ fun _ _ h => h
  rintro _ m' (rfl | rfl)
  · exact hmoves (by rw [Instruction.Lands, he]; exact .inl rfl)
  · exact hmoves (by rw [Instruction.Lands, he]; exact .inr rfl)

/-- A call that is refused is a move that stays. -/
theorem call_refused (he : i.effect = .call)
    (h : (m.goto (m.active.ip + 1)).Reworked F (i.b.cells + i.a.address.toNat) 1 m') :
    Moves program F i m m' := by
  refine stay_of_reworked (t := m.active.ip + 1) (he ▸ trivial)
    (by rw [Instruction.Lands, he]) ?_
  rw [Instruction.takes, Instruction.gives, he]
  exact h

theorem call_enters {f : Func} {args : Array Value} (he : i.effect = .call) (hf : F f)
    (hcallee : m.value? program i.b = some (.function f)) (harity : args.size = f.params) :
    Move program F i m
      ⟨((m.active.moved (m.active.ip + 1)).swap i.b.cells #[]).enter f
        (m.active.stack.size - (i.b.cells + i.a.address.toNat)) m.heap.size, m.consumers,
        m.globals, m.heap.push (Frame.ofArgs args f.frameSize), m.console, m.journal⟩ := by
  have henter := @Move.enter program F i m.active m.consumers f args m.globals m.heap
    m.console m.journal m.journal he hf hcallee harity
  rw [Instruction.takes, he] at henter
  exact henter

theorem call_moves (he : i.effect = .call) (hr : program.Readable i.b)
    (hc : i.b.cells + i.a.address.toNat ≤ m.active.stack.size) (hs : m.active.Stack F)
    (hm : m.Memory F) :
    Leads (call program limits i.a i.b) (m.goto (m.active.ip + 1))
      (fun _ m' => Moves program F i m m') (Faults F m i) := by
  refine (call_leads (m := m.goto _) hr hc hs ⟨hm.globals, hm.heap⟩).mono ?_ fun _ _ h => h
  rintro _ m' (h | ⟨hmem, f, args, hf, hcallee, harity, rfl⟩)
  · exact call_refused he h
  · exact ⟨hmem, call_enters he hf hcallee harity⟩

/-- An action that leads to a next instruction. -/
theorem next_leads {x : Action Unit} {P Q : Machine → Prop} {E : Cause → Machine → Prop}
    (hx : Leads x m (fun _ m' => P m') E) :
    Leads (do x; return Flow.next) m
      (fun flow m' => match flow with
        | .next => P m'
        | .exit _ => Q m') E :=
  hx.bind fun _ _ h => Leads.of_ok rfl h

end Action

/-- A ready machine moves, exits, or fails with a permitted cause. -/
theorem Action.execute_leads {F : Func → Prop} {program : Program} {limits : Limits} {m : Machine}
    {i : Instruction} (hl : i.Legal program m.active.ip) (hm : m.Ready F i) :
    Action.Leads (Action.execute program limits m.active.ip i) (m.goto (m.active.ip + 1))
      (fun flow m' => match flow with
        | .next => Moves program F i m m'
        | .exit _ => m'.Memory F ∧ m'.heap = m.heap)
      (Faults F m i) := by
  have hmem : (m.goto (m.active.ip + 1)).Memory F := ⟨hm.memory.globals, hm.memory.heap⟩
  have htakes := hm.takes
  have hplain := i.opcode.effect_plain F
  have hstay {x : Action Unit} := @Action.stay_leads F program m i x (Faults F m i)
  rw [Action.execute_eq]
  unfold Instruction.Legal at hl
  unfold Instruction.takes at htakes
  unfold Instruction.Lands Instruction.takes Instruction.gives at hstay
  cases he : i.effect with
  | unary f =>
    rw [show i.opcode.effect = .unary f from he] at hplain
    rw [he] at hl htakes hstay
    exact Action.next_leads (hstay trivial rfl
      (Action.unary_leads hplain hl.1 hl.2 htakes hm.stack hmem))
  | binary f =>
    rw [show i.opcode.effect = .binary f from he] at hplain
    rw [he] at hl htakes hstay
    exact Action.next_leads (hstay trivial rfl
      (Action.binary_leads hplain hl.1 hl.2.1 hl.2.2 htakes hm.stack hmem))
  | pop =>
    rw [he] at htakes hstay
    exact Action.next_leads (hstay trivial rfl (Action.pop_leads htakes hmem))
  | slice =>
    rw [he] at hl htakes hstay
    exact Action.next_leads (hstay trivial rfl
      (Action.slice_leads hl.1 hl.2.1 hl.2.2 htakes hm.stack hmem))
  | makeArray =>
    rw [he] at hl htakes hstay
    exact Action.next_leads (hstay trivial rfl
      (Action.makeArray_leads hl.1 hl.2 htakes hm.stack hmem))
  | jump =>
    rw [he] at hl
    have hjump := Action.next_leads (Q := fun m' => m'.Memory F ∧ m'.heap = m.heap)
      (Action.jump_moves he hl hm.memory)
    rwa [bind_assoc] at hjump
  | jumpIfFalse =>
    rw [he] at hl htakes
    exact Action.next_leads (Action.jumpIfFalse_moves he hl.1 hl.2 htakes hm.stack hm.memory)
  | makeFunction =>
    rw [he] at hl hstay
    exact Action.next_leads (hstay trivial rfl (Action.makeFunction_leads hl (hm.makes he) hmem))
  | call =>
    rw [he] at hl htakes
    exact Action.next_leads (Action.call_moves he hl htakes hm.stack hm.memory)
  | ret =>
    rw [he] at hl
    exact Action.next_leads (Action.ret_leads he hl hm)
  | openGroup => exact Action.next_leads (Action.openGroup_leads he hm.memory)
  | spawn =>
    rw [he] at hl
    exact Action.next_leads (Action.spawn_leads he hl.1 hl.2 hm)
  | endIteration => exact Action.next_leads (Action.endIteration_leads he hm)
  | resume =>
    rw [he] at hl
    exact Action.next_leads (Action.resume_leads he hl hm)
  | yield =>
    rw [he] at hl
    exact Action.next_leads (Action.yield_leads he hl hm)
  | closeGroup => exact Action.next_leads (Action.closeGroup_leads he hm)
  | readLine =>
    rw [he] at hl hstay
    exact Action.next_leads (hstay trivial rfl (Action.readLine_leads hl hmem))
  | write ending =>
    rw [he] at hl htakes hstay
    exact Action.next_leads (hstay trivial rfl
      (Action.write_effect_leads ending hl.1 hl.2 htakes hm.stack hmem))
  | exit =>
    rw [he] at hl htakes
    refine (Action.read_leads (m := m.goto _) (i := i) (by simp) hl htakes hm.stack hmem).bind ?_
    rintro v _ ⟨rfl, -, -⟩
    exact Action.Leads.of_ok rfl ⟨hmem.cut _, rfl⟩

/-! ## Steps -/

variable {F : Func → Prop} {program : Program} {limits : Limits} {m m' : Machine} {i : Instruction}

theorem Move.of_journal {c : Context} {cs : Array Context} {g : Globals} {h : Heap} {co : Console}
    {j j' : Journal} (hm : Move program F i ⟨c, cs, g, h, co, j⟩ m') :
    Move program F i ⟨c, cs, g, h, co, j'⟩ m' := by
  cases hm with
  | stay hl ht hk hv hh => exact .stay hl ht hk hv hh
  | enter he hf hc ha => exact .enter he hf hc ha
  | ret he hval hv hl hr => exact .ret he hval hv hl hr
  | openGroup he => exact .openGroup he
  | spawn he hg => exact .spawn he hg
  | yield he hval hv hb hp hs => exact .yield he hval hv hb hp hs
  | resume he hs => exact .resume he hs
  | endIteration he hb hp => exact .endIteration he hb hp
  | closeGroup he hg => exact .closeGroup he hg

/-- A call enters a function with a frame of its own, or leaves all calls as they are. -/
theorem Move.of_call (hm : Move program F i m m') (he : i.effect = .call) :
    m'.consumers = m.consumers ∧ (m'.active.calls = m.active.calls ∨
      ∃ (f : Func) (args : Array Value), F f ∧ m.value? program i.b = some (.function f) ∧
        args.size = f.params ∧ m'.heap = m.heap.push (Frame.ofArgs args f.frameSize) ∧
        m'.active = ((m.active.moved (m.active.ip + 1)).swap i.b.cells #[]).enter f
          (m.active.stack.size - i.takes) m.heap.size) := by
  cases hm with
  | stay => exact ⟨rfl, .inl rfl⟩
  | enter _ hf hc ha => exact ⟨rfl, .inr ⟨_, _, hf, hc, ha, rfl, rfl⟩⟩
  | ret he' | openGroup he' | spawn he' | yield he' | resume he' | endIteration he'
  | closeGroup he' =>
    rw [he] at he'
    cases he'

/-- What a move comes to for the contexts, by the effect of the instruction. Calls and
returns are left open. -/
def Effect.Switches (program : Program) (i : Instruction) (m m' : Machine) : Effect → Prop
  | .call | .ret | .exit => True
  | .openGroup => m'.consumers = m.consumers ∧
      m'.active = { m.active.moved (m.active.ip + 1) with loops := m.active.loops.push #[] }
  | .spawn => ∃ group, m.active.loops.back? = some group ∧
      m'.active = .start (m.active.ip + 1) m.active.frames.addressable ∧
      m'.consumers = m.consumers.push
        ((m.active.openSlot.moved (Program.jumpTarget m.active.ip i.a)).waiting
          ⟨group.size, Program.jumpTarget m.active.ip i.b⟩)
  | .yield => ∃ consumer p v, m.value? program i.b = some v ∧ m.consumers.back? = some consumer ∧
      consumer.pending = some p ∧ m'.consumers = m.consumers.pop ∧
      m'.active = ((consumer.setSlot p.slot
        (some ((m.active.moved (m.active.ip + 1)).swap i.takes #[]).awake)).awake).swap 0 #[v]
  | .resume => ∃ producer, m.active.slot? i.a.address.toNat = some (some producer) ∧
      m'.active = producer.awake ∧
      m'.consumers = m.consumers.push
        (((m.active.moved (m.active.ip + 1)).setSlot i.a.address.toNat none).waiting
          ⟨i.a.address.toNat, Program.jumpTarget m.active.ip i.b⟩)
  | .endIteration => ∃ consumer p, m.consumers.back? = some consumer ∧ consumer.pending = some p ∧
      m'.consumers = m.consumers.pop ∧ m'.active = (consumer.moved p.onDrop).awake
  | .closeGroup => m'.consumers = m.consumers ∧
      m'.active = (m.active.moved (m.active.ip + 1)).closeGroup
  | _ => m'.consumers = m.consumers ∧ ∃ (t : Nat) (vs : Array Value), i.Lands m.active.ip t ∧
      vs.size = i.gives ∧ m'.active = (m.active.moved t).swap i.takes vs

theorem Move.switches (hm : Move program F i m m') :
    i.effect.Switches program i m m' := by
  cases hm with
  | stay hl ht hk _ _ =>
    cases he : i.effect <;> rw [he] at hl <;>
      first | exact hl.elim | exact trivial | exact ⟨rfl, _, _, ht, hk, rfl⟩
  | enter he | ret he =>
    rw [he]
    exact trivial
  | openGroup he | closeGroup he =>
    rw [he]
    exact ⟨rfl, rfl⟩
  | spawn he hg =>
    rw [he]
    exact ⟨_, hg, rfl, rfl⟩
  | yield he hval _ hb hp _ =>
    rw [he]
    exact ⟨_, _, _, hval, hb, hp, rfl, rfl⟩
  | resume he hs =>
    rw [he]
    exact ⟨_, hs, rfl, rfl⟩
  | endIteration he hb hp =>
    rw [he]
    exact ⟨_, _, hb, hp, rfl, rfl⟩

/-- No move takes a frame from the heap, or a slot from a frame. -/
theorem Move.kept (hm : Move program F i m m') : m.heap.Kept m'.heap := by
  cases hm with
  | stay _ _ _ _ hh => exact hh
  | enter => exact .push _ _
  | ret | openGroup | spawn | yield | resume | endIteration | closeGroup => exact .refl _

theorem Machine.Ready.of_journal {c : Context} {cs : Array Context} {g : Globals} {h : Heap}
    {co : Console} {j j' : Journal} (hm : Machine.Ready F i ⟨c, cs, g, h, co, j⟩) :
    Machine.Ready F i ⟨c, cs, g, h, co, j'⟩ :=
  ⟨hm.takes, hm.stack, ⟨hm.memory.globals, hm.memory.heap⟩, hm.makes, hm.spawns, hm.closes,
    hm.resumes, hm.yields, hm.ends, hm.returns⟩

/-- The machine that a step leads to, or that an end leaves. -/
def Step.machine : Step → Machine
  | .running m | .finished _ m | .exited _ m | .faulted _ m => m

theorem Step.eq_running {st : Step} (h : st.isEnd = false) : st = .running st.machine := by
  cases st with
  | running m => rfl
  | finished v m | exited status m | faulted fault m => cases h

theorem Machine.run_one : Machine.run program limits 1 m = m.step program limits := by
  rw [Machine.run_succ]
  cases m.step program limits <;> rfl

/-- A run that is not at its end after `n + k` steps is one of `k` steps behind one of `n`. -/
theorem Machine.run_machine {n k : Nat} (h : (Machine.run program limits (n + k) m).isEnd = false) :
    Machine.run program limits k (Machine.run program limits n m).machine =
      .running (Machine.run program limits (n + k) m).machine := by
  rw [← Step.eq_running h, Machine.run_add]
  cases hn : Machine.run program limits n m with
  | running m₁ => rfl
  | finished v m₁ | exited status m₁ | faulted fault m₁ =>
    rw [Machine.run_add, hn] at h
    cases h

/-- What one step of a ready machine can come to. -/
inductive Stepped (program : Program) (F : Func → Prop) (i : Instruction) (m : Machine) :
    Step → Prop
  | running {m' : Machine} : Moves program F i m m' → Stepped program F i m (.running m')
  | exited {status : Int64} {m' : Machine} : m'.Memory F → m'.heap = m.heap →
      Stepped program F i m (.exited status m')
  | faulted {cause : Cause} {m' : Machine} : Faults F m i cause m' →
      Stepped program F i m (.faulted ⟨cause, m.active.ip⟩ m')

theorem Machine.step_eq (hi : program.instruction? m.active.ip = some i) :
    m.step program limits =
      match Action.execute program limits m.active.ip i
        ((if limits.trace then m.record (.executing m.active.ip i m.consumers.size) else m).goto
          (m.active.ip + 1)) with
      | .ok .next m => .running m
      | .ok (.exit status) m => .exited status m
      | .error cause m' => .faulted ⟨cause, m.active.ip⟩ m' := by
  unfold Program.instruction? at hi
  unfold Machine.step
  dsimp only
  cases hw : program.code[m.active.ip]? with
  | none =>
    rw [hw] at hi
    cases hi
  | some w =>
    rw [hw] at hi
    dsimp only at hi ⊢
    cases hd : Instruction.decode w with
    | error e =>
      rw [hd] at hi
      cases hi
    | ok i' =>
      rw [hd] at hi
      cases hi
      rfl

/-- A ready machine moves, exits, or stops with a permitted fault. -/
theorem Machine.step_stepped (hi : program.instruction? m.active.ip = some i)
    (hl : i.Legal program m.active.ip) (hm : m.Ready F i) :
    Stepped program F i m (m.step program limits) := by
  rw [Machine.step_eq hi]
  obtain ⟨c, cs, g, h, co, j⟩ := m
  obtain ⟨j', hj'⟩ : ∃ j', (if limits.trace then Machine.record ⟨c, cs, g, h, co, j⟩
      (.executing c.ip i cs.size) else ⟨c, cs, g, h, co, j⟩) = ⟨c, cs, g, h, co, j'⟩ := by
    split
    · exact ⟨_, rfl⟩
    · exact ⟨j, rfl⟩
  dsimp only at hj' ⊢
  rw [hj']
  have hready : Machine.Ready F i ⟨c, cs, g, h, co, j'⟩ := hm.of_journal
  have hleads := @Action.execute_leads F program limits ⟨c, cs, g, h, co, j'⟩ i hl hready
  unfold Action.Leads at hleads
  dsimp only at hleads
  revert hleads
  cases Action.execute program limits c.ip i (Machine.goto ⟨c, cs, g, h, co, j'⟩ (c.ip + 1)) with
  | ok flow m' =>
    cases flow with
    | next => exact fun h => .running ⟨h.1, h.2.of_journal⟩
    | exit status => exact fun h => .exited h.1 h.2
  | error cause m' => exact fun h => .faulted h

end YieldMachine
