import Mathlib.Data.List.Infix
import YieldMachine.Proofs.Row.Execution

/-!
# Arrays of literals

The code of a literal is one instruction, which puts a constant onto the stack. So in an array of
literals nothing else runs between two elements, and each element gives the value that was
written there. Such an array comes to its end, however long it is, if there is room on the stack
for a full chunk and one array.

    Row.Reads        what an execution has read so far
    elementsEnd      its elements come to their end
    hasRoom          and the stack is never full
-/

namespace YieldMachine

variable {program : Program} {limits : Limits} {m m' : Machine} {c₀ : Context}

namespace Row

variable {row : Row} {nodes : List Node} {ls : List Literal} {l : Literal} {vs : List Value}
  {x y : Point}

/-! ## Elements -/

/-- A literal is one instruction. -/
theorem In.literal (h : row.In program (ls.map .literal)) (hlt : vs.length < row.count) :
    ∃ l o, ls[vs.length]? = some l ∧ program.pool.Constant o l.value ∧
      program.instruction? (row.startAt vs.length) = some ⟨.move, .stack, o, .unused⟩ ∧
      row.endAt vs.length = row.startAt vs.length + 1 := by
  obtain ⟨node, code, o, hnode, hcode, hholds, hend⟩ := h.piece hlt
  rw [List.getElem?_map, Option.map_eq_some_iff] at hnode
  obtain ⟨l, hl, rfl⟩ := hnode
  rw [Code] at hcode
  obtain ⟨rfl, hconstant⟩ := hcode
  have hmoved : pushed [] o = [⟨.move, .stack, o, .unused⟩] := by
    obtain ⟨j, rfl, -⟩ := hconstant
    rfl
  rw [hmoved] at hholds hend
  exact ⟨l, o, hl, hconstant, hholds.1, hend⟩

/-- The instruction of an element puts its value behind the operands of the literal. -/
theorem In.reads (h : row.In program (ls.map .literal)) (hlt : vs.length < row.count)
    (hm : m.active = row.context c₀ ⟨vs, .element⟩) :
    ∃ l i, ls[vs.length]? = some l ∧ program.instruction? m.active.ip = some i ∧
      i.effect ≠ .yield ∧
      ∀ {limits m'}, m.step program limits = .running m' →
        m'.At (c₀.plus (row.endAt vs.length) (chunked vs ++ #[l.value])) m.consumers m.world := by
  obtain ⟨l, o, hl, ⟨j, rfl, hvalue⟩, hi, hend⟩ := h.literal hlt
  have hat : m.At (c₀.plus (row.startAt vs.length) (chunked vs)) m.consumers m.world :=
    ⟨hm, rfl, rfl⟩
  have hlook : m.world.look program (c₀.plus (row.startAt vs.length + 1) (chunked vs)) ⟨.data, j⟩ =
    some l.value := (Action.at?_natCast _ j).trans hvalue
  have hnext : ((c₀.plus (row.startAt vs.length) (chunked vs)).moved
      (row.startAt vs.length + 1)).swap 0 #[l.value] =
        c₀.plus (row.endAt vs.length) (chunked vs ++ #[l.value]) := by
    rw [Context.moved_plus, Context.swap_zero_plus, hend]
  refine ⟨l, ⟨.move, .stack, ⟨.data, j⟩, .unused⟩, hl, hm ▸ hi, nofun, fun hstep => ?_⟩
  obtain ⟨w', hput, hat'⟩ := hat.stores (f := id) hi rfl hlook hstep
  cases hput
  rwa [← hnext]

/-- There is such a step unless the stack is full. -/
theorem In.goes (h : row.In program (ls.map .literal)) (hlt : vs.length < row.count)
    (hm : m.active = row.context c₀ ⟨vs, .element⟩)
    (hroom : c₀.stack.size + chunkLength < limits.maxStack) :
    ∃ m', m.step program limits = .running m' := by
  obtain ⟨l, o, -, ⟨j, rfl, hvalue⟩, hi, -⟩ := h.literal hlt
  have hat : m.At (c₀.plus (row.startAt vs.length) (chunked vs)) m.consumers m.world :=
    ⟨hm, rfl, rfl⟩
  have hlook : ∀ c : Context, m.world.look program c ⟨.data, j⟩ = some l.value := fun _ =>
    (Action.at?_natCast _ j).trans hvalue
  have hle := size_chunked_le vs
  have hfree : (c₀.plus (row.startAt vs.length) (chunked vs)).stack.size < limits.maxStack := by
    rw [Context.size_plus]
    omega
  obtain ⟨m', hstep, -⟩ := hat.step_room hi rfl
    (fun _ h₁ => Action.unary_stores (f := id) h₁ (hlook _)) rfl hfree
  exact ⟨m', hstep⟩

/-! ## Executions -/

/-- An execution has read the literals in their order, and runs nothing else between them. -/
structure Reads (row : Row) (ls : List Literal) (c₀ : Context) (x : Point) : Prop where
  all : x.progress.all <+: ls.map Literal.value
  rests : x.progress.stage = .element →
    x.seat = x.machine.front ∧ x.machine.active = row.context c₀ x.progress

theorem Reads.begins (hbase : m.active.ip = row.base) : row.Reads ls m.active (row.begins m) := by
  refine ⟨?_, fun _ => ⟨rfl, (context_start hbase).symm⟩⟩
  have hall : row.start.all = [] := all_next (Nat.zero_le _)
  show row.start.all <+: _
  rw [hall]
  exact List.nil_prefix

/-- Where the literal is over, it has the values that were written there. -/
theorem Reads.values (h : row.Reads ls c₀ x) (hdone : x.progress.stage = .done)
    (hlen : x.progress.values.length = ls.length) :
    x.progress.values = ls.map Literal.value := by
  obtain ⟨m, seat, vs, stage⟩ := x
  dsimp only at hdone hlen ⊢
  subst hdone
  exact h.all.eq_of_length (by rw [List.length_map]; exact hlen)

/-- A step in an element gives its value. -/
theorem Steps.read (hrow : row.In program (ls.map .literal)) (hlt : vs.length < row.count)
    (hm : m.active = row.context c₀ ⟨vs, .element⟩)
    (hs : row.Steps program limits c₀ ⟨m, m.front, ⟨vs, .element⟩⟩ y) :
    ∃ l, ls[vs.length]? = some l ∧ y.progress = row.ended vs l.value ∧
      y.seat = y.machine.front ∧ y.machine.active = row.context c₀ y.progress := by
  obtain ⟨l, i, hl, hi, hyield, hgives⟩ := hrow.reads hlt hm
  obtain @⟨_, m', _, _, p', i', hi', hstep, htakes, hshows⟩ := hs
  cases hi.symm.trans hi'
  have hat := hgives hstep
  have hfront : m.reseat i m.front = m'.front := by
    rw [Machine.reseat_front hyield, Machine.front, Machine.front, hat.consumers]
  refine ⟨l, hl, ?_⟩
  rcases htakes.of_element with rfl | ⟨v, rfl, hactive⟩
  · -- the context has left the code of the element
    obtain ⟨-, c, hc, -, hinside⟩ := hshows
    rw [hfront, Machine.seat?_front] at hc
    cases hc
    rw [hat.active] at hinside
    exact absurd (hinside rfl).2 (Nat.lt_irrefl _)
  · have htop : ∀ {u}, m'.active = c₀.plus (row.endAt vs.length) (chunked vs ++ #[u]) →
        m'.world.look program m'.active .stack = some u := fun heq => heq ▸ look_stack_plus
    cases (htop hactive).symm.trans (htop hat.active)
    exact ⟨rfl, hfront, hactive.trans (context_ended hlt).symm⟩

theorem Steps.reads (hrow : row.In program (ls.map .literal)) (hf : row.Fits x.progress)
    (hx : row.Reads ls c₀ x) (hs : row.Steps program limits c₀ x y) : row.Reads ls c₀ y := by
  obtain ⟨m, seat, vs, stage⟩ := x
  obtain ⟨hall, hrests⟩ := hx
  by_cases hstage : stage = .element
  · subst hstage
    obtain ⟨hseat, hactive⟩ := hrests rfl
    dsimp only at hseat
    subst hseat
    obtain ⟨l, hl, hy, hfront, hnext⟩ := hs.read hrow hf hactive
    refine ⟨?_, fun _ => ⟨hfront, hnext⟩⟩
    have hvalue : (ls.map Literal.value)[vs.length]? = some l.value := by
      rw [List.getElem?_map, hl]
      rfl
    obtain ⟨hlen, hget⟩ := List.getElem?_eq_some_iff.1 hvalue
    rw [hy, all_ended hf, ← hget]
    exact List.concat_get_prefix hall hlen
  · obtain @⟨_, m', _, _, p', i, hi, hstep, htakes, hshows⟩ := hs
    cases htakes with
    | within | finish => exact absurd rfl hstage
    | act hown hfront hstored hreached =>
      exact ⟨hf.all_after ▸ hall, fun _ => ⟨hfront, hreached.active⟩⟩

/-- By induction on the steps: an execution reads the literals in their order. -/
theorem Path.reads (hrow : row.In program (ls.map .literal))
    (hruns : row.Runs program c₀ x.machine x.seat x.progress) (hx : row.Reads ls c₀ x)
    (hp : row.Path program limits c₀ x y) : row.Reads ls c₀ y := by
  induction hp with
  | refl => exact hx
  | tail hpath hs ih => exact hs.reads hrow (Path.runs hrow hruns hpath).shows.fits ih

/-! ## The end of the literal -/

/-- Every element comes to its end with its one step. -/
theorem elementsEnd (hrow : row.In program (ls.map .literal)) (hc₀ : c₀.pending = none)
    (hruns : row.Runs program c₀ x.machine x.seat x.progress) (hx : row.Reads ls c₀ x)
    (hroom : c₀.stack.size + chunkLength < limits.maxStack) :
    row.ElementsEnd program limits c₀ x := by
  intro y hpath hstage
  obtain ⟨-, hrests⟩ := hpath.reads hrow hruns hx
  have hruns' := Path.runs hrow hruns hpath
  obtain ⟨hseat, hactive⟩ := hrests hstage
  obtain ⟨m, seat, vs, stage⟩ := y
  dsimp only at hstage hseat hactive hruns' ⊢
  subst hstage hseat
  have hlt : vs.length < row.count := hruns'.shows.fits
  obtain ⟨l, i, -, hi, hyield, hgives⟩ := hrow.reads hlt hactive
  obtain ⟨m', hstep⟩ := hrow.goes hlt hactive hroom
  have hat := hgives hstep
  have hfront : m.reseat i m.front = m'.front := by
    rw [Machine.reseat_front hyield, Machine.front, Machine.front, hat.consumers]
  rcases hruns'.step hrow hc₀ Stage.noConfusion hi hstep (hfront ▸ Machine.seat?_front) with
    ⟨p', htakes, hruns''⟩ | hleft
  · have hs := Steps.step hi hstep htakes hruns''.shows
    obtain ⟨l', -, hp', -, -⟩ := hs.read hrow hlt hactive
    refine ⟨_, .single hs, ?_⟩
    rw [hp', all_ended hlt, List.length_append]
    exact Nat.lt_succ_self _
  · rw [hat.active] at hleft
    exact absurd hleft (Nat.lt_irrefl _)

/-- An instruction of the literal itself goes on if there is room on the stack. -/
theorem Shows.room {p : Progress} {seat : Seat} {nodes : List Node} (hrow : row.In program nodes)
    (hdest : row.dest = .stack) (h : row.Shows c₀ p m seat) (hown : p.stage.isOwn)
    (hroom : c₀.stack.size + (chunkLength + 1) < limits.maxStack) :
    ∃ m', m.step program limits = .running m' := by
  obtain ⟨-, hm⟩ := h.at_active hown
  obtain ⟨i, x, n, hacts⟩ := (hrow.act h.fits hown : ∃ i x n, row.Acts program limits c₀ p i x n)
  have hgoal : row.goal p = .stack := by
    unfold goal
    split
    · exact hdest
    · rfl
  have hmoved : (row.context c₀ p).moved ((row.context c₀ p).ip + 1) =
      c₀.plus (row.place p + 1) (row.own p) := Context.moved_plus
  have hsize := h.fits.size_own
  obtain ⟨m', hstep, -⟩ := hm.step_room hacts.instruction hacts.run
    (fun m₁ h₁ => by rw [hmoved] at h₁ ⊢; exact hacts.stores h₁)
    (show m.world.put? program _ (row.goal p) _ = some m.world by rw [hgoal]; rfl)
    (by rw [context, Context.size_plus]; omega)
  exact ⟨m', hstep⟩

/-- No step finds the stack full, if nothing comes behind the literal. -/
theorem hasRoom (hrow : row.In program (ls.map .literal)) (hdest : row.dest = .stack)
    (hexit : program.code.size ≤ row.exitAt)
    (hruns : row.Runs program c₀ x.machine x.seat x.progress) (hx : row.Reads ls c₀ x)
    (hroom : c₀.stack.size + (chunkLength + 1) < limits.maxStack) :
    row.HasRoom program limits c₀ x := by
  intro y fault m' hpath hstep hfull
  have hruns' := Path.runs hrow hruns hpath
  have hnot : ¬ ∃ m', y.machine.step program limits = .running m' := by
    rintro ⟨m'', h⟩
    cases h.symm.trans hstep
  cases hown : y.progress.stage.isOwn with
  | true => exact hnot (hruns'.shows.room hrow hdest hown hroom)
  | false =>
    obtain ⟨-, hrests⟩ := hpath.reads hrow hruns hx
    obtain ⟨m, seat, vs, stage⟩ := y
    cases stage with
    | element => exact hnot (hrow.goes hruns'.shows.fits (hrests rfl).2 (by omega))
    | done =>
      -- the machine is behind the program
      have hip : m.active.ip = row.exitAt := by
        rw [hruns'.shows.state.2]
        rfl
      have hsound := hruns'.sound.step limits
      rw [hstep] at hsound
      cases hsound with
      | faulted hi =>
        rw [Program.instruction?, hip, Array.getElem?_eq_none hexit] at hi
        cases hi
    | gather | join | deliver => cases hown

end Row

end YieldMachine
