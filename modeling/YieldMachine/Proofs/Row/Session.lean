import YieldMachine.Proofs.Compile.Counting
import YieldMachine.Proofs.Row.Literals

/-!
# Array literals in sessions

An array literal that is compiled anywhere in a program keeps to its protocol, whatever its
elements do, as long as its activation is there. It never keeps more than a full chunk and one
array on the stack. When every element comes to its end and the stack is never full, the array
of the values of the elements, in their order, is brought to the destination of the literal,
just as one instruction would do that makes an array of all of them.

    Session.Reached.array_exact
-/

namespace YieldMachine

variable {program : Program} {nodes : List Node} {row : Row}

/-! ## Runs -/

/-- An array literal that is compiled anywhere in a program, and that a run comes to, is
executed as its protocol says: each state that the run comes to from there is a point of the
execution, until the literal is over or its activation is left. At each point the literal
keeps no more than a full chunk and one array on the stack, and its values are those that the
code of its elements gave. Where it is over, it has as many values as elements, and the array
of them has been brought to its destination, as one instruction would do that makes an array
of them all. And it comes to that end, or to a destination that does not take the array, when
its elements come to theirs and the stack is never full. -/
theorem Session.Reached.array_exact {s : Session} {node : Node} {m₀ : Machine}
    (hs : s.Reached) (hm : s.Visits node program m₀) (hrow : row.In program nodes)
    (hbase : m₀.active.ip = row.base) :
    (∀ x, row.Path program s.limits m₀.active (row.begins m₀) x →
      row.Shows m₀.active x.progress x.machine x.seat ∧
      (row.own x.progress).size ≤ chunkLength + 1 ∧
      (∀ k v, x.progress.all[k]? = some v →
        row.Gave program s.limits m₀.active (row.begins m₀) x k v) ∧
      (x.progress.stage ≠ .done → ∀ i m c, program.instruction? x.machine.active.ip = some i →
        x.machine.step program s.limits = .running m → m.seat? (x.machine.reseat i x.seat) = some c →
        (∃ p, row.Steps program s.limits m₀.active x ⟨m, x.machine.reseat i x.seat, p⟩) ∨
          c.calls.size < m₀.active.calls.size) ∧
      (x.progress.stage = .done → x.progress.values.length = nodes.length ∧
        ∃ y, row.Path program s.limits m₀.active (row.begins m₀) y ∧
          row.Steps program s.limits m₀.active y x ∧
          row.Delivers program m₀.active x.progress.values y.machine x.machine ∧
          row.AtOnce program s.limits m₀.active x.progress.values y.machine x.machine)) ∧
    (row.ElementsEnd program s.limits m₀.active (row.begins m₀) →
      row.HasRoom program s.limits m₀.active (row.begins m₀) →
      ∃ x, row.Path program s.limits m₀.active (row.begins m₀) x ∧ (x.progress.stage = .done ∨
        x.progress.stage = .deliver ∧ x.machine.world.put? program m₀.active row.dest
          (.array x.progress.values.toArray) = none)) := by
  have hsound := hs.visits hm
  have hpending := hsound.active.pending
  have hstart := Row.Runs.begins hrow hsound hbase
  have hall : row.start.all = [] := Row.all_next (Nat.zero_le _)
  refine ⟨fun x hpath => ?_, fun hends hroom =>
    hstart.ends hrow hends hroom _ _ rfl .refl⟩
  have hruns := Row.Path.runs hrow hstart hpath
  refine ⟨hruns.shows, hruns.shows.fits.size_own, Row.Path.gave hrow hstart hall hpath, ?_, ?_⟩
  · intro hdone i m c hi hstep hc
    rcases hruns.step hrow hpending hdone hi hstep hc with ⟨p, htakes, hruns'⟩ | hleft
    · exact .inl ⟨p, .step hi hstep htakes hruns'.shows⟩
    · exact .inr hleft
  · intro hdone
    obtain ⟨m, seat, vs, stage⟩ := x
    dsimp only at hdone
    subst hdone
    refine ⟨hruns.shows.fits.trans hrow.count_eq, ?_⟩
    cases hpath.cases_tail with
    | inl heq =>
      have hstage : Row.Stage.done = row.start.stage := congrArg (fun x => x.progress.stage) heq
      rcases row.start_cases with ⟨-, hs⟩ | ⟨-, hs⟩ <;> rw [hs] at hstage <;> cases hstage
    | inr hlast =>
      obtain ⟨y, hbefore, hstep⟩ := hlast
      have hdelivers := hstep.delivers (Row.Path.runs hrow hstart hbefore).shows.fits rfl
      exact ⟨y, hbefore, hstep, hdelivers, hdelivers.atOnce⟩

/-- An array that is compiled as a statement is a literal, with nothing behind it. -/
theorem Session.start?_row {s : Session} {start : Machine}
    (h : s.start? (.array nodes) = some (program, start)) :
    ∃ row : Row, row.dest = .stack ∧ row.In program nodes ∧ row.exitAt = program.code.size ∧
      start.active = .start row.base #[] := by
  obtain ⟨⟨code, r, hgained⟩, hactive, -⟩ := Session.start?_eq_some h
  obtain ⟨rfl, -⟩ := hgained.lowered.pieces 0
  have hpushed : pushed code .stack = code := List.append_nil code
  have hholds := hgained.holds
  have hsize := hgained.size
  rw [hpushed] at hholds hsize
  obtain ⟨row, hbase, hdest, hcode, hrow⟩ := hgained.lowered.row hholds
  refine ⟨row, hdest, hrow, ?_, hbase ▸ hactive⟩
  rw [row.exitAt_eq, hcode, hbase, hsize]

/-- An array of one integer more than fits into a chunk: its elements come to their end, the
stack is never full, and the literal delivers the integers in their order. -/
theorem Session.array_exact_counting :
    ∃ (program : Program) (m₀ : Machine) (row : Row) (x y : Row.Point),
      (Session.fresh {} default default).Visits (.array (counting 0 (chunkLength + 1))) program m₀ ∧
      row.In program (counting 0 (chunkLength + 1)) ∧ m₀.active.ip = row.base ∧
      row.ElementsEnd program {} m₀.active (row.begins m₀) ∧
      row.HasRoom program {} m₀.active (row.begins m₀) ∧
      row.Path program {} m₀.active (row.begins m₀) x ∧
      row.Steps program {} m₀.active x y ∧ y.progress.stage = .done ∧
      y.progress.values = (integers 0 (chunkLength + 1)).map Literal.value ∧
      row.Delivers program m₀.active y.progress.values x.machine y.machine := by
  have hs := Session.Reached.fresh {} default default
  obtain ⟨program, hcompile⟩ := Program.compile_counting (Nat.lt_succ_self chunkLength)
    (by decide) (default : Journal)
  obtain ⟨m₀, hst⟩ : ∃ m₀, (Session.fresh {} default default).start?
      (.array (counting 0 (chunkLength + 1))) = some (program, m₀) :=
    Session.start?_of_compile rfl hcompile
  obtain ⟨row, hdest, hrow, hexit, hactive⟩ := Session.start?_row hst
  have hm : (Session.fresh {} default default).Visits (.array (counting 0 (chunkLength + 1)))
      program m₀ := ⟨m₀, 0, hst, rfl⟩
  have hbase : m₀.active.ip = row.base := by rw [hactive]; rfl
  have hempty : m₀.active.stack.size = 0 := by rw [hactive]; rfl
  obtain ⟨hpoints, hdone⟩ := hs.array_exact hm hrow hbase
  have hsound := hs.visits hm
  have hruns := Row.Runs.begins hrow hsound hbase
  have hliterals : row.In program ((integers 0 (chunkLength + 1)).map .literal) :=
    counting_eq 0 (chunkLength + 1) ▸ hrow
  have hreads : row.Reads (integers 0 (chunkLength + 1)) m₀.active (row.begins m₀) := .begins hbase
  have hends := Row.elementsEnd hliterals hsound.active.pending hruns hreads
    (by rw [hempty]; exact (by decide : 0 + chunkLength < ({} : Limits).maxStack))
  have hroom := Row.hasRoom hliterals hdest hexit.ge hruns hreads
    (by rw [hempty]; exact (by decide : 0 + (chunkLength + 1) < ({} : Limits).maxStack))
  obtain ⟨y, hy, hstage⟩ := hdone hends hroom
  have hover : y.progress.stage = .done := hstage.resolve_right fun ⟨_, hput⟩ => by
    rw [hdest] at hput
    cases hput
  obtain ⟨-, -, -, -, hexact⟩ := hpoints y hy
  obtain ⟨hlen, x, hx, hlast, hdelivers, -⟩ := hexact hover
  have hvalues := (hy.reads hliterals hruns hreads).values hover
    (by rw [hlen, counting_eq, List.length_map])
  exact ⟨program, m₀, row, x, y, hm, hrow, hbase, hends, hroom, hx, hlast, hover, hvalues,
    hdelivers⟩

end YieldMachine
