import YieldMachine.Proofs.Row.Protocol

/-!
# Stages of an array literal

In every stage but the elements, the next instruction is one of the literal itself. It takes
operands of the literal, and stores the result of the stage: arrays of chunks go onto the
stack, and the array of all values goes to the destination of the literal.

    In.act        the instruction of a stage, what it stores, and where that leads
    Shows.acts    a step of the machine in such a stage
    Shows.runs    unless the stack is full, there is one where the result can be stored
-/

namespace YieldMachine

namespace Row

variable {program : Program} {limits : Limits} {row : Row} {nodes : List Node} {p : Progress}
  {vs : List Value} {v : Value} {i : Instruction} {m m' : Machine} {seat : Seat} {c₀ c : Context}
  {cs : Array Context} {w w' : World}

/-! ## Instructions -/

/-- The instruction of a stage: it stores the result of the stage, and goes on behind it. -/
structure Acts (row : Row) (program : Program) (limits : Limits) (c₀ : Context) (p : Progress)
    (i : Instruction) (x : Action Unit) (n : Nat) : Prop where
  instruction : program.instruction? (row.place p) = some i
  effect : i.effect ≠ .yield
  run : i.effect.run program limits (row.place p) i = (do x; return Flow.next)
  stores : ∀ {cs : Array Context} {w : World} {m : Machine},
    m.At (c₀.plus (row.place p + 1) (row.own p)) cs w →
    Action.Stores program limits x m (c₀.plus (row.place p + 1) (row.own p)) cs w n (row.goal p)
      p.result
  leads : (c₀.plus (row.place p + 1) (row.own p)).swap n ((row.goal p).received p.result) =
    row.context c₀ (row.after p)

/-- An instruction that takes its operands from the top. -/
theorem Acts.of_top {x : Action Unit} {us vals : Array Value} (hown : row.own p = us ++ vals)
    (hi : program.instruction? (row.place p) = some i) (he : i.effect ≠ .yield)
    (hrun : i.effect.run program limits (row.place p) i = (do x; return Flow.next))
    (hstores : ∀ {cs : Array Context} {w : World} {m : Machine},
      m.At (c₀.plus (row.place p + 1) (us ++ vals)) cs w →
      Action.Stores program limits x m (c₀.plus (row.place p + 1) (us ++ vals)) cs w vals.size
        (row.goal p) p.result)
    (hleads : c₀.plus (row.place p + 1) (us ++ (row.goal p).received p.result) =
      row.context c₀ (row.after p)) : row.Acts program limits c₀ p i x vals.size := by
  refine ⟨hi, he, hrun, ?_, ?_⟩
  · rw [hown]
    exact hstores
  · rw [hown, Context.swap_plus_append rfl]
    exact hleads

/-- An array is made of the values on top. -/
theorem makeArray_stores_top {us vals : Array Value} {ip : Nat} {o : Operand}
    (h : m.At (c.plus ip (us ++ vals)) cs w) :
    Action.Stores program limits
      (Action.makeArray program limits ⟨.makeArray, o, ⟨.immediate, vals.size⟩, .unused⟩) m
      (c.plus ip (us ++ vals)) cs w vals.size o (.array vals) := by
  have hextract : (c.plus ip (us ++ vals)).stack.extract
      ((c.plus ip (us ++ vals)).stack.size - vals.size) (c.plus ip (us ++ vals)).stack.size =
        vals := by
    rw [Context.plus_append]
    exact Context.extract_plus
  have hstores : Action.Stores program limits
      (Action.makeArray program limits ⟨.makeArray, o, ⟨.immediate, vals.size⟩, .unused⟩) m _ cs w
      vals.size o _ :=
    Action.makeArray_stores h rfl (by rw [Context.size_plus, Array.size_append]; omega)
  rwa [hextract] at hstores

/-- The top of the stack. -/
theorem look_stack_plus {us : Array Value} {ip : Nat} :
    w.look program (c.plus ip (us ++ #[v])) .stack = some v := by
  show (c.stack ++ (us ++ #[v])).back? = some v
  rw [← Array.append_assoc, Array.append_singleton, Array.back?_push]

/-- Two arrays on top are joined. -/
theorem add_stores_top {us xs ys : Array Value} {ip : Nat}
    (h : m.At (c.plus ip (us ++ #[.array xs, .array ys])) cs w) :
    Action.Stores program limits (Action.binary program limits ⟨.add, .stack, .stack, .stack⟩
        BinaryOp.add.apply) m (c.plus ip (us ++ #[.array xs, .array ys])) cs w 2 .stack
      (.array (xs ++ ys)) := by
  have hsplit : us ++ #[.array xs, .array ys] = us ++ #[.array xs] ++ #[.array ys] := by
    rw [Array.append_assoc]
    rfl
  rw [hsplit] at h ⊢
  have hbelow : (c.plus ip (us ++ #[.array xs] ++ #[.array ys])).swap 1 #[] =
      c.plus ip (us ++ #[.array xs]) := by
    rw [Context.swap_plus_append (show 1 = #[Value.array ys].size from rfl), Array.append_empty]
  have hleft : w.look program ((c.plus ip (us ++ #[.array xs] ++ #[.array ys])).swap 1 #[]) .stack =
      some (.array xs) := by
    rw [hbelow]
    exact look_stack_plus
  exact Action.binary_stores (i := ⟨.add, .stack, .stack, .stack⟩) h look_stack_plus hleft

/-! ## Stages -/

theorem In.gathers (h : row.In program nodes) (hlt : vs.length < row.count)
    (hfills : row.Fills vs.length) :
    ∃ i x n, row.Acts program limits c₀ ⟨vs, .gather v⟩ i x n := by
  have hbehind := h.behind hlt
  have hlen : (vs ++ [v]).length = vs.length + 1 := List.length_append
  have hstart := startAt_succ row vs.length
  rw [behind_of_fills hfills] at hbehind hstart
  have hsize : ((ungathered vs).toArray ++ #[v]).size = chunkSize vs.length :=
    length_ungathered_push vs
  have hi := hbehind.1
  rw [← hsize] at hi
  have hown : row.own ⟨vs, .gather v⟩ =
      (if chunkLength ≤ vs.length then #[.array (gathered vs).toArray] else #[]) ++
        ((ungathered vs).toArray ++ #[v]) := by
    rw [← Array.append_assoc]
    rfl
  refine ⟨_, _, _, .of_top hown hi (by simp [Instruction.effect, Opcode.effect]) rfl
    makeArray_stores_top ?_⟩
  have hafter : row.after ⟨vs, .gather v⟩ =
    if chunkLength ≤ vs.length then ⟨vs, .join v⟩ else row.next (vs ++ [v]) := rfl
  rw [hafter]
  split
  · rfl
  · next hfirst =>
    -- the first chunk: the values before it are all in it
    have hshort : ungathered vs = vs := by
      rw [ungathered, Nat.mod_eq_of_lt (by omega), Nat.sub_self, List.drop_zero]
    rw [if_neg hfirst] at hstart
    rw [context, own_next_of_fills hlt hfills, place_next (by omega), hlen, hstart,
      Array.empty_append]
    show c₀.plus _ #[.array ((ungathered vs).toArray ++ #[v])] = _
    rw [hshort, List.append_toArray]
    rfl

theorem In.joins (h : row.In program nodes) (hlt : vs.length < row.count)
    (hfills : row.Fills vs.length) (hle : chunkLength ≤ vs.length) :
    ∃ i x n, row.Acts program limits c₀ ⟨vs, .join v⟩ i x n := by
  have hbehind := h.behind hlt
  have hlen : (vs ++ [v]).length = vs.length + 1 := List.length_append
  have hstart := startAt_succ row vs.length
  rw [behind_of_fills hfills, if_pos hle] at hbehind hstart
  have hown : row.own ⟨vs, .join v⟩ = #[] ++
      #[.array (gathered vs).toArray, .array ((ungathered vs).toArray ++ #[v])] := by
    rw [Array.empty_append]
    rfl
  have hresult : Progress.result ⟨vs, .join v⟩ =
      .array ((gathered vs).toArray ++ ((ungathered vs).toArray ++ #[v])) := by
    show Value.array (vs ++ [v]).toArray = _
    rw [List.append_toArray, List.append_toArray, ← List.append_assoc,
      gathered_append_ungathered]
  refine ⟨_, _, _, .of_top hown hbehind.2.1 (by simp [Instruction.effect, Opcode.effect]) rfl ?_ ?_⟩
  · intro cs w m hm
    rw [hresult]
    exact add_stores_top hm
  · rw [show row.after ⟨vs, .join v⟩ = row.next (vs ++ [v]) from rfl, context,
      own_next_of_fills hlt hfills, place_next (by omega), hlen, hstart, Array.empty_append]
    rfl

theorem In.delivers (h : row.In program nodes) (hlen : vs.length = row.count)
    (hdest : ¬ (chunkLength < row.count ∧ row.dest = .stack)) :
    ∃ i x n, row.Acts program limits c₀ ⟨vs, .deliver⟩ i x n := by
  have hlast := h.last
  have hleads : row.last.length = 1 → c₀.plus (row.lastAt + 1)
      (#[] ++ row.dest.received (.array vs.toArray)) = row.context c₀ ⟨vs, .done⟩ := by
    intro hone
    rw [Array.empty_append, context, place, exitAt, hone]
    rfl
  by_cases hlong : chunkLength < row.count
  · have hmoved : row.last = [⟨.move, row.dest, .stack, .unused⟩] := by
      rw [Row.last, if_pos hlong, moved, materialize, if_neg fun heq => hdest ⟨hlong, heq.symm⟩]
    rw [hmoved] at hlast hleads
    have hown : row.own ⟨vs, .deliver⟩ = #[] ++ #[.array vs.toArray] := by
      rw [Array.empty_append]
      exact if_pos hlong
    refine ⟨_, _, _, .of_top hown hlast.1 (by simp [Instruction.effect, Opcode.effect]) rfl
      (fun hm => ?_) (hleads rfl)⟩
    exact Action.unary_stores (f := id) (i := ⟨.move, row.dest, .stack, .unused⟩) hm look_stack_plus
  · have hmade : row.last = [⟨.makeArray, row.dest, ⟨.immediate, row.count⟩, .unused⟩] :=
      if_neg hlong
    rw [hmade] at hlast hleads
    have hi := hlast.1
    rw [show row.count = vs.toArray.size from hlen.symm] at hi
    have hown : row.own ⟨vs, .deliver⟩ = #[] ++ vs.toArray := by
      rw [Array.empty_append]
      exact if_neg hlong
    exact ⟨_, _, _, .of_top hown hi (by simp [Instruction.effect, Opcode.effect]) rfl
      makeArray_stores_top (hleads rfl)⟩

/-- In every stage but the elements, the literal has an instruction that acts. -/
theorem In.act (h : row.In program nodes) (hf : row.Fits p) (hown : p.stage.isOwn) :
    ∃ i x n, row.Acts program limits c₀ p i x n := by
  obtain ⟨vs, stage⟩ := p
  cases stage with
  | element | done => cases hown
  | gather v => exact h.gathers hf.1 hf.2
  | join v => exact h.joins hf.1 hf.2.1 hf.2.2
  | deliver => exact h.delivers hf.1 hf.2

/-! ## Steps -/

theorem Shows.at_active (h : row.Shows c₀ p m seat) (hown : p.stage.isOwn) :
    seat = m.front ∧ m.At (row.context c₀ p) m.consumers m.world := by
  obtain ⟨vs, stage⟩ := p
  obtain ⟨-, hstate⟩ := h
  cases stage with
  | element | done => cases hown
  | _ => exact ⟨hstate.1, hstate.2, rfl, rfl⟩

theorem Acts.step_stores {x : Action Unit} {n : Nat} (h : row.Acts program limits c₀ p i x n)
    (hm : m.At (row.context c₀ p) cs w) :
    (∀ w', w.put? program c₀ (row.goal p) p.result = some w' →
      (∃ m', m.step program limits = .running m' ∧
        m'.At (row.context c₀ (row.after p)) cs w') ∨
      ∃ fault m', m.step program limits = .faulted fault m' ∧
        fault.cause = .stackOverflow limits.maxStack) ∧
    (w.put? program c₀ (row.goal p) p.result = none →
      ∀ m', m.step program limits ≠ .running m') := by
  have hmoved : (row.context c₀ p).moved ((row.context c₀ p).ip + 1) =
      c₀.plus (row.place p + 1) (row.own p) := Context.moved_plus
  have hsteps := hm.step_stores h.instruction h.run fun m₁ h₁ => by
    rw [hmoved] at h₁ ⊢
    exact h.stores h₁
  rw [hmoved, h.leads] at hsteps
  exact hsteps

/-- A step in such a stage stores its result. -/
theorem Shows.acts (hrow : row.In program nodes) (h : row.Shows c₀ p m seat)
    (hown : p.stage.isOwn) (hi : program.instruction? m.active.ip = some i)
    (hstep : m.step program limits = .running m') :
    m.reseat i seat = m'.front ∧
      m.world.put? program c₀ (row.goal p) p.result = some m'.world ∧
      m'.At (row.context c₀ (row.after p)) m.consumers m'.world := by
  obtain ⟨rfl, hm⟩ := h.at_active hown
  obtain ⟨j, x, n, hacts⟩ := (hrow.act h.fits hown : ∃ i x n, row.Acts program limits c₀ p i x n)
  rw [hm.active] at hi
  cases hi.symm.trans hacts.instruction
  obtain ⟨hsome, hnone⟩ := hacts.step_stores hm
  cases hp : m.world.put? program c₀ (row.goal p) p.result with
  | none => exact absurd hstep (hnone hp m')
  | some w' =>
    rcases hsome w' hp with ⟨m₁, hstep₁, hat⟩ | ⟨fault, m₁, hstep₁, -⟩
    · rw [hstep] at hstep₁
      cases hstep₁
      obtain rfl := hat.world
      refine ⟨?_, rfl, hat⟩
      rw [Machine.reseat_front hacts.effect, Machine.front, Machine.front, hat.consumers]
    · rw [hstep] at hstep₁
      cases hstep₁

/-- There is such a step where the result can be stored, unless the stack is full. -/
theorem Shows.runs (hrow : row.In program nodes) (h : row.Shows c₀ p m seat)
    (hown : p.stage.isOwn) (hp : m.world.put? program c₀ (row.goal p) p.result = some w') :
    (∃ i m', program.instruction? m.active.ip = some i ∧
      m.step program limits = .running m') ∨
    ∃ fault m', m.step program limits = .faulted fault m' ∧
      fault.cause = .stackOverflow limits.maxStack := by
  obtain ⟨-, hm⟩ := h.at_active hown
  obtain ⟨i, x, n, hacts⟩ := (hrow.act h.fits hown : ∃ i x n, row.Acts program limits c₀ p i x n)
  refine ((hacts.step_stores hm).1 w' hp).imp_left ?_
  rintro ⟨m', hstep, -⟩
  exact ⟨i, m', hm.active ▸ hacts.instruction, hstep⟩

end Row

end YieldMachine
