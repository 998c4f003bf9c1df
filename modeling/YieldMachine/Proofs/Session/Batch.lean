import YieldMachine.Proofs.Flow.Session

/-!
# Programs in batches

A session that has not exited executes the statements of a program in order, up to the
first that exits, and gives one value for each that it executed. Two programs run one
after the other leave what one program of all their statements leaves, and give the same
values together.

A session that has exited executes nothing more. But a program that is not empty is still
given one nil there, however many statements it has. So behind an exit the second of two
programs has one value that the program of all the statements does not have.

    run_append   two programs and the program of all their statements
-/

namespace YieldMachine
namespace Session

/-! ## Definitions -/

/-- Statements are executed in order, none of them in a session that has exited: the value
of each, and the session that they leave. -/
inductive Executes : Session → List Node → List Value → Session → Prop
  | nil (s : Session) : Executes s [] [] s
  | cons {s t u : Session} {fuel : Nat} {node : Node} {nodes : List Node} {v : Value}
      {values : List Value} : s.exitCode = none → s.eval fuel node = some (.ok v, t) →
      Executes t nodes values u → Executes s (node :: nodes) (v :: values) u

variable {s t u : Session} {node : Node} {nodes p q : List Node} {fuel fuel' : Nat}
  {values : Array Value} {x : Except SessionError Value × Session}

theorem Executes.length {vs : List Value} (h : s.Executes nodes vs t) :
    vs.length = nodes.length := by
  induction h with
  | nil s => rfl
  | cons _ _ _ ih => rw [List.length_cons, List.length_cons, ih]

/-! ## Fuel -/

/-- A statement that came to its end comes to the same end with more fuel. -/
theorem eval_add (h : s.eval fuel node = some x) (more : Nat) :
    s.eval (fuel + more) node = some x := by
  cases hst : s.start? node with
  | some start =>
    obtain ⟨program, m⟩ := start
    rw [eval_of_start hst] at h ⊢
    rwa [Machine.run_add_of_isEnd]
    cases hrun : Machine.run program s.limits fuel m with
    | running m' =>
      rw [hrun] at h
      cases h
    | finished v m' | exited status m' | faulted fault m' => rfl
  | none =>
    obtain ⟨program, limits, machine, exitCode⟩ := s
    cases exitCode with
    | some status => exact h
    | none =>
      unfold start? at hst
      unfold eval at h ⊢
      dsimp only at hst h ⊢
      generalize program.compile machine.journal node = compiled at hst h ⊢
      obtain ⟨e | entry, program', journal⟩ := compiled
      · exact h
      · cases hst

/-- So does a program. -/
theorem runFrom_add {y : Except SessionError (Array Value) × Session}
    (h : s.runFrom fuel values nodes = some y) (more : Nat) :
    s.runFrom (fuel + more) values nodes = some y := by
  induction nodes generalizing s values with
  | nil => exact h
  | cons node nodes ih =>
    rw [runFrom] at h ⊢
    cases he : s.eval fuel node with
    | none =>
      rw [he] at h
      cases h
    | some pair =>
      rw [eval_add he more]
      rw [he] at h
      obtain ⟨e | v, t⟩ := pair
      · exact h
      · dsimp only at h ⊢
        split at h
        · next hexit => rw [if_pos hexit, h]
        · next hexit => rw [if_neg hexit, ih h]

theorem run_mono {y : Except SessionError (Array Value) × Session} (h : s.run fuel nodes = some y)
    (hle : fuel ≤ fuel') : s.run fuel' nodes = some y := by
  obtain ⟨more, rfl⟩ := Nat.exists_eq_add_of_le hle
  exact runFrom_add h more

/-! ## Behind earlier values -/

/-- The values of earlier statements only stand in front. -/
theorem runFrom_values (earlier : Array Value) :
    s.runFrom fuel (earlier ++ values) nodes =
      (s.runFrom fuel values nodes).map fun (result, t) => (result.map (earlier ++ ·), t) := by
  induction nodes generalizing s values with
  | nil => rfl
  | cons node nodes ih =>
    rw [runFrom, runFrom]
    cases s.eval fuel node with
    | none => rfl
    | some pair =>
      obtain ⟨e | v, t⟩ := pair
      · rfl
      · dsimp only
        rw [← Array.append_push]
        split
        · rfl
        · exact ih

theorem runFrom_of_run {vs : Array Value} (h : s.run fuel nodes = some (.ok vs, t)) :
    s.runFrom fuel values nodes = some (.ok (values ++ vs), t) := by
  have hfront : s.runFrom fuel (values ++ #[]) nodes = _ := runFrom_values values
  rw [Array.append_empty] at hfront
  rw [hfront, show s.runFrom fuel #[] nodes = _ from h]
  rfl

/-! ## Exits -/

theorem eval_of_exited (h : s.exitCode ≠ none) : s.eval fuel node = some (.ok .nil, s) := by
  obtain ⟨program, limits, machine, exitCode⟩ := s
  cases exitCode with
  | none => exact absurd rfl h
  | some status => rfl

/-- In a session that has exited a program is given one nil, unless it is empty. -/
theorem run_of_exited (h : s.exitCode ≠ none) :
    s.run fuel nodes = some (.ok (if nodes = [] then #[] else #[.nil]), s) := by
  cases nodes with
  | nil => rfl
  | cons node nodes =>
    rw [run, runFrom, eval_of_exited h]
    exact if_pos (Option.isSome_iff_ne_none.2 h)

/-! ## Programs -/

/-- A program goes on behind the statements of its front, unless one of these has exited. -/
theorem runFrom_append {vs : Array Value} (h : s.runFrom fuel values p = some (.ok vs, t))
    (q : List Node) :
    s.runFrom fuel values (p ++ q) =
      if t.exitCode ≠ none ∧ p ≠ [] then some (.ok vs, t) else t.runFrom fuel vs q := by
  induction p generalizing s values with
  | nil =>
    cases h
    rw [if_neg (fun hboth => hboth.2 rfl)]
    rfl
  | cons node p ih =>
    rw [runFrom] at h
    rw [List.cons_append, runFrom]
    cases he : s.eval fuel node with
    | none =>
      rw [he] at h
      cases h
    | some pair =>
      obtain ⟨e | v, t₁⟩ := pair
      · rw [he] at h
        cases h
      · rw [he] at h
        dsimp only at h ⊢
        by_cases hexit : t₁.exitCode.isSome
        · rw [if_pos hexit] at h ⊢
          cases h
          exact (if_pos ⟨Option.isSome_iff_ne_none.1 hexit, List.cons_ne_nil node p⟩).symm
        · rw [if_neg hexit] at h ⊢
          rw [ih h]
          cases p with
          | nil =>
            cases h
            rw [if_neg (fun hboth => hboth.2 rfl), if_neg]
            exact fun hboth => hexit (Option.isSome_iff_ne_none.2 hboth.1)
          | cons node' p =>
            simp only [ne_eq, reduceCtorEq, not_false_eq_true, and_true]

/-- A session that has not exited executes the statements in order, up to the first that exits. -/
theorem runFrom_executes {vs : Array Value} (hs : s.exitCode = none)
    (h : s.runFrom fuel values nodes = some (.ok vs, t)) :
    ∃ executed rest new, nodes = executed ++ rest ∧ s.Executes executed new t ∧
      vs.toList = values.toList ++ new ∧ (rest ≠ [] → t.exitCode ≠ none) := by
  induction nodes generalizing s values with
  | nil =>
    cases h
    exact ⟨[], [], [], rfl, .nil _, (List.append_nil _).symm, fun hne => absurd rfl hne⟩
  | cons node nodes ih =>
    rw [runFrom] at h
    cases he : s.eval fuel node with
    | none =>
      rw [he] at h
      cases h
    | some pair =>
      obtain ⟨e | v, t₁⟩ := pair
      · rw [he] at h
        cases h
      · rw [he] at h
        dsimp only at h
        split at h
        · next hexit =>
          cases h
          exact ⟨[node], nodes, [v], rfl, .cons hs he (.nil _), Array.toList_push,
            fun _ => Option.isSome_iff_ne_none.1 hexit⟩
        · next hexit =>
          obtain ⟨executed, rest, new, rfl, hexecutes, hvalues, hrest⟩ :=
            ih (Option.not_isSome_iff_eq_none.1 hexit) h
          refine ⟨node :: executed, rest, v :: new, rfl, .cons hs he hexecutes, ?_, hrest⟩
          rw [hvalues, Array.toList_push, List.append_assoc, List.singleton_append]

/-- Two programs that are run one after the other, and what the program of all their statements
does. Values are given one for each statement that was executed, where the session had not exited
before. Both ways leave the same session; and both give the same values, unless the first program
has exited, or was not empty in a session that had, and the second is not empty: this one is given
a nil then. -/
theorem run_append {vp vq : Array Value} (hp : s.run fuel p = some (.ok vp, t))
    (hq : t.run fuel' q = some (.ok vq, u)) :
    (s.exitCode = none → ∃ executed rest, p = executed ++ rest ∧
      s.Executes executed vp.toList t ∧ vp.size = executed.length ∧
      (rest ≠ [] → t.exitCode ≠ none)) ∧
    (s.exitCode ≠ none → vp = (if p = [] then #[] else #[.nil]) ∧ t = s) ∧
    (t.exitCode = none ∨ p = [] ∨ q = [] →
      s.run (max fuel fuel') (p ++ q) = some (.ok (vp ++ vq), u)) ∧
    (t.exitCode ≠ none → p ≠ [] → q ≠ [] →
      vq = #[.nil] ∧ u = t ∧ s.run (max fuel fuel') (p ++ q) = some (.ok vp, u)) := by
  have happend := runFrom_append (run_mono hp (Nat.le_max_left fuel fuel')) q
  have hrest : t.runFrom (max fuel fuel') vp q = some (.ok (vp ++ vq), u) :=
    runFrom_of_run (run_mono hq (Nat.le_max_right fuel fuel'))
  refine ⟨fun hs => ?_, fun hs => ?_, fun hboth => ?_, fun ht hp₀ hq₀ => ?_⟩
  · obtain ⟨executed, rest, new, hsplit, hexecutes, hvalues, hexit⟩ := runFrom_executes hs hp
    obtain rfl : vp.toList = new := hvalues
    exact ⟨executed, rest, hsplit, hexecutes, by rw [← hexecutes.length, Array.length_toList], hexit⟩
  · rw [run_of_exited hs] at hp
    cases hp
    exact ⟨rfl, rfl⟩
  · by_cases hstop : t.exitCode ≠ none ∧ p ≠ []
    · -- only an empty second program is left, and it leaves everything as it is
      obtain rfl : q = [] := by grind
      cases hq
      rw [List.append_nil, Array.append_empty]
      exact run_mono hp (Nat.le_max_left fuel fuel')
    · rw [if_neg hstop] at happend
      exact happend.trans hrest
  · rw [run_of_exited ht, if_neg hq₀] at hq
    cases hq
    rw [if_pos ⟨ht, hp₀⟩] at happend
    exact ⟨rfl, rfl, happend⟩

/-- A program that exits with its second statement, and one more statement behind it. -/
theorem run_append_exit :
    ∃ (t : Session) (vp : Array Value), t.exitCode ≠ none ∧ vp.size = 2 ∧
      (fresh {} default default).run 8 [.literal .nil, .primitive .exit [.literal .nil]] =
        some (.ok vp, t) ∧
      t.run 8 [.literal .nil] = some (.ok #[.nil], t) ∧
      (fresh {} default default).run 8
        [.literal .nil, .primitive .exit [.literal .nil], .literal .nil] = some (.ok vp, t) := by
  have hexits : ((fresh {} default default).run 8
      [.literal .nil, .primitive .exit [.literal .nil]]).any (fun (result, t) =>
        result.toOption.any (·.size = 2) && t.exitCode.isSome) = true := by decide +kernel
  obtain ⟨⟨result, t⟩, h, hboth⟩ := (Option.any_eq_true _ _).1 hexits
  obtain ⟨hresult, hexit⟩ := Bool.and_eq_true_iff.1 hboth
  have ht : t.exitCode ≠ none := Option.isSome_iff_ne_none.1 hexit
  cases result with
  | error e => cases hresult
  | ok vp =>
    have hnext : t.run 8 [.literal .nil] = some (.ok #[.nil], t) := run_of_exited ht
    obtain ⟨-, -, hwhole⟩ :=
      (run_append h hnext).2.2.2 ht (List.cons_ne_nil _ _) (List.cons_ne_nil _ _)
    exact ⟨t, vp, ht, of_decide_eq_true hresult, h, hnext, hwhole⟩

end Session
end YieldMachine
