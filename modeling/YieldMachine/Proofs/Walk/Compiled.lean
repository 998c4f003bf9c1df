import YieldMachine.Proofs.Walk.Calls

/-!
# Compiled code follows the walk

By induction on the fuel of the walk: the code of a node performs the walk through it, as
does the code of every body that it calls.

    Stands.does   the code of a node performs the walk through it
-/

namespace YieldMachine

open Walk

/-! ## Programs that grow -/

section

variable {p program : Program} {r dest o : Operand} {a b ip : Nat} {v : Value} {target : Ref}

theorem Pool.Constant.within (h : p.pool.Constant r v) (hp : p.Within program) :
    program.pool.Constant r v := by
  obtain ⟨i, rfl, hi⟩ := h
  exact ⟨i, rfl, hp.pool i v hi⟩

theorem Pool.Variable.within (h : p.pool.Variable target r) (hp : p.Within program) :
    program.pool.Variable target r := by
  cases target with
  | own slot | outer slot => exact h
  | global name =>
    obtain ⟨i, rfl, hi⟩ := h
    exact ⟨i, rfl, hp.pool i _ hi⟩

theorem Program.Carries.within (h : p.Carries r dest a b) (hp : p.Within program) :
    program.Carries r dest a b := by
  unfold Program.Carries at h ⊢
  split at h
  · next heq => rwa [if_pos heq]
  · next hne =>
    rw [if_neg hne]
    exact ⟨hp.instruction? h.1, h.2⟩

theorem Program.Drops.within (h : p.Drops r a b) (hp : p.Within program) :
    program.Drops r a b := by
  unfold Program.Drops at h ⊢
  split at h
  · next heq =>
    rw [if_pos heq]
    exact ⟨hp.instruction? h.1, h.2⟩
  · next hne => rwa [if_neg hne]

theorem Program.Leaps.within (h : p.Leaps ip o a) (hp : p.Within program) :
    program.Leaps ip o a := by
  obtain ⟨⟨hpos, hle⟩, hto⟩ := h
  have := hp.size_le
  exact ⟨⟨hpos, by omega⟩, hto⟩

theorem Program.Gathers.within {k : Nat} {isLast : Bool} (h : p.Gathers k isLast a b)
    (hp : p.Within program) : program.Gathers k isLast a b :=
  ⟨h.1.within hp, h.2⟩

end

/-! ## Values that are pinned -/

section

variable {bodies : Bodies} {l : Locals} {fuel : Nat}

/-- A walk through a node that is read in place changes nothing. -/
theorem Walk.eval_inPlace {node : Node} (h : node.isInPlace) {e : Entries} {w w' : World}
    {v : Value} (hx : eval bodies fuel l e node w = .ok v w') : w' = w := by
  cases fuel with
  | zero => cases hx
  | succ fuel =>
    cases node with
    | literal value =>
      cases hx
      rfl
    | ref target =>
      rw [eval, read_apply] at hx
      split at hx
      · cases hx
        rfl
      · cases hx
    | _ => cases h

theorem keeps_pinnedAt {later : List Node} {node : Node} (h : node ∈ later) (r : Operand)
    (e : Entries) : Keeps r (pinnedAt later r) (eval bodies fuel l e node) := by
  unfold pinnedAt
  cases hd : Node.disturbs later r with
  | true =>
    exact ⟨.inr (if_pos rfl), fun hvar => by rw [if_pos rfl] at hvar; cases hvar⟩
  | false =>
    rw [if_neg Bool.false_ne_true]
    refine ⟨.inl rfl, fun hvar w v w' hx => eval_inPlace ?_ hx⟩
    unfold Node.disturbs at hd
    rw [hvar, Bool.true_and, List.any_eq_false] at hd
    simpa using hd node h

end

/-! ## Nodes in a row -/

section

variable {program p : Program} {l : Locals} {walk : Entries → Node → Walk Value}

theorem Walk.length_each {nodes : List Node} {es : Nat → Entries} {w w' : World}
    {vs : List Value} (h : each walk es nodes w = .ok vs w') : vs.length = nodes.length := by
  induction nodes generalizing es w vs with
  | nil =>
    cases h
    rfl
  | cons node nodes ih =>
    rw [each] at h
    cases hx : walk (es 0) node w with
    | error s w₁ =>
      rw [bind_of_error hx] at h
      cases h
    | ok v w₁ =>
      rw [bind_of_ok hx] at h
      cases hxs : each walk (fun i => es (i + 1)) nodes w₁ with
      | error s w₂ =>
        rw [bind_of_error hxs] at h
        cases h
      | ok ws w₂ =>
        rw [bind_of_ok hxs] at h
        cases h
        rw [List.length_cons, List.length_cons, ih hxs]

variable (hp : p.Within program) (hw : ∀ {node : Node} {dest : Operand} {base : Nat} {e : Entries}
  {r : Operand} {stop : Nat}, Stands p dest base node e r stop →
    Does program l base dest r stop (walk e node))

include hp hw

theorem StandsAll.does (nodes : List Node) {base stop : Nat} {es : Nat → Entries}
    (h : StandsAll p base nodes es stop) :
    DoesAll program l base stop (each walk es nodes) := by
  induction nodes generalizing base es with
  | nil =>
    rw [StandsAll] at h
    exact h ▸ .nil
  | cons node nodes ih =>
    rw [StandsAll] at h
    obtain ⟨vr, a, b, hs, hc, hrest⟩ := h
    exact .cons ((hw hs).carried (hc.within hp)) (ih hrest)

theorem StandsChunks.does (nodes : List Node) {base stop : Nat} {es : Nat → Entries}
    {vs : List Value} (h : StandsChunks p base vs.length nodes es stop) :
    DoesChunks program l base stop vs nodes.isEmpty (each walk es nodes) := by
  induction nodes generalizing base es vs with
  | nil =>
    rw [StandsChunks] at h
    exact h ▸ .nil
  | cons node nodes ih =>
    rw [StandsChunks] at h
    obtain ⟨vr, a, b, c, hs, hc, hg, hrest⟩ := h
    refine .cons ((hw hs).carried (hc.within hp)) (hg.within hp) fun v => ih ?_
    rwa [List.length_append, List.length_singleton]

theorem StandsBlock.does (nodes : List Node) {dest r : Operand} {base stop : Nat}
    {es : Nat → Entries} (h : StandsBlock p dest base nodes es r stop) :
    Does program l base dest r stop (inOrder walk es nodes) := by
  match nodes with
  | [] =>
    rw [StandsBlock] at h
    obtain ⟨hr, rfl⟩ := h
    exact .constant (hr.within hp)
  | [last] =>
    rw [StandsBlock] at h
    exact hw h
  | node :: next :: nodes =>
    rw [StandsBlock] at h
    · obtain ⟨vr, a, b, hs, hd, hrest⟩ := h
      exact .andThen (hw hs) (hd.within hp) (StandsBlock.does (next :: nodes) hrest)
    · intro h
      cases h

theorem StandsOption.does (branch : Option Node) {r : Operand} {base stop : Nat} {e : Entries}
    (h : StandsOption p base branch e r stop) :
    Does program l base .stack r stop (optional (walk e) branch) := by
  cases branch with
  | none =>
    rw [StandsOption] at h
    obtain ⟨hr, rfl⟩ := h
    exact .constant (hr.within hp)
  | some node =>
    rw [StandsOption] at h
    exact hw h

end

/-! ## Nodes -/

section

variable {program p : Program}

/-- What the code of a primitive does, once its argument has been walked through. -/
theorem Does.perform {l : Locals} {op : Primitive} {x : Walk Value} {base a : Nat}
    {dest r vr : Operand} (hp : p.Within program)
    (hx : Does program l base .stack vr a x)
    (h : if op = .exit then p.pool.Constant r .nil ∧
        p.instruction? a = some ⟨.exit, .unused, vr, .unused⟩
      else r = dest ∧ p.instruction? a = some ⟨op.opcode, dest, vr, .unused⟩) :
    op ≠ .readLine → Does program l base dest r (a + 1) (do perform op (← x)) := by
  intro hread
  cases op with
  | exit => exact hx.exit (hp.instruction? h.2)
  | readLine => exact absurd rfl hread
  | toInt | toFloat | toStr =>
    obtain ⟨rfl, hi⟩ := h
    exact hx.unary (hp.instruction? hi) rfl
  | print =>
    obtain ⟨rfl, hi⟩ := h
    exact hx.write (hp.instruction? hi) rfl
  | write =>
    obtain ⟨rfl, hi⟩ := h
    have := hx.write (hp.instruction? hi) rfl
    simp only [String.append_empty] at this
    exact this

/-- The code of a node performs the walk through it. -/
theorem Stands.does {bodies : Bodies} (hk : program.Knows bodies) (fuel : Nat) :
    ∀ {p : Program} {l : Locals} {node : Node} {dest r : Operand} {base stop : Nat} {e : Entries},
      p.Within program → Stands p dest base node e r stop →
        Does program l base dest r stop (eval bodies fuel l e node) := by
  induction fuel with
  | zero =>
    intro p l node dest r base stop e hp h c cs w hip hl
    trivial
  | succ fuel ih =>
    intro p l node dest r base stop e hp h
    cases node with
    | literal value =>
      rw [Stands] at h
      obtain ⟨hr, rfl⟩ := h
      exact .constant (hr.within hp)
    | ref target =>
      rw [Stands] at h
      obtain ⟨hr, rfl⟩ := h
      exact .ref (hr.within hp)
    | assign target value =>
      rw [Stands] at h
      obtain ⟨hr, vr, a, hs, hc⟩ := h
      exact .assign (hr.within hp) (ih hp hs) (hc.within hp)
    | unary op operand =>
      rw [Stands] at h
      obtain ⟨rfl, vr, a, hs, hi, rfl⟩ := h
      exact (ih hp hs).unary (hp.instruction? hi) op.effect_opcode
    | binary left op right =>
      rw [Stands] at h
      obtain ⟨rfl, lr, a, b, rr, d, hs, hc, hs', hi, rfl⟩ := h
      exact (ih hp hs).binary (hc.within hp) (keeps_pinnedAt (by simp) lr _) (ih hp hs')
        (hp.instruction? hi) op.effect_opcode
    | index target place =>
      rw [Stands] at h
      obtain ⟨rfl, lr, a, b, rr, d, hs, hc, hs', hi, rfl⟩ := h
      exact (ih hp hs).binary (hc.within hp) (keeps_pinnedAt (by simp) lr _) (ih hp hs')
        (hp.instruction? hi) rfl
    | slice target start last =>
      rw [Stands] at h
      obtain ⟨rfl, tr, a, b, ar, c, d, br, f, hs, hc, hs', hc', hs'', hi, rfl⟩ := h
      exact .slice (ih hp hs) (hc.within hp) (keeps_pinnedAt (by simp) tr _)
        (keeps_pinnedAt (by simp) tr _) (ih hp hs') (hc'.within hp)
        (keeps_pinnedAt (by simp) ar _) (ih hp hs'') (hp.instruction? hi)
    | len target =>
      rw [Stands] at h
      obtain ⟨rfl, vr, a, hs, hi, rfl⟩ := h
      exact (ih hp hs).unary (hp.instruction? hi) rfl
    | array elements =>
      rw [Stands] at h
      obtain ⟨rfl, a, h⟩ := h
      split at h
      · obtain ⟨hs, hi, rfl⟩ := h
        exact .array (StandsAll.does hp (ih hp) elements hs) length_each (hp.instruction? hi)
      · next hlong =>
        obtain ⟨hs, hc⟩ := h
        have hxs : DoesChunks program l base a [] elements.isEmpty _ :=
          StandsChunks.does hp (ih hp) elements hs
        have hne : elements.isEmpty = false := by
          cases elements with
          | nil => exact absurd (Nat.zero_le _) hlong
          | cons node nodes => rfl
        rw [hne] at hxs
        exact .longArray hxs (hc.within hp)
    | block nodes =>
      rw [Stands] at h
      exact StandsBlock.does hp (ih hp) nodes h
    | cond condition thenBranch elseBranch =>
      rw [Stands] at h
      obtain ⟨rfl, cr, a, o, tr, b, c, o', er, d, hs, hi, ho, hs', hc, hi', ho', hs'', hc'⟩ := h
      exact .cond (ih hp hs) (hp.instruction? hi) (ho.within hp)
        ((ih hp hs').carried (hc.within hp)) (hp.instruction? hi') (ho'.within hp)
        ((StandsOption.does hp (ih hp) elseBranch hs'').carried (hc'.within hp))
    | loop condition body =>
      rw [Stands] at h
      obtain ⟨rfl, nil, cr, a, o, br, b, c, o', hnil, hi, hs, hi', ho, hpop, hs', hc, hj, ho',
        rfl⟩ := h
      exact .loop (hnil.within hp) (hp.instruction? hi) (ih hp hs) (hp.instruction? hi')
        (ho.within hp) (hp.instruction? hpop) ((ih hp hs').carried (hc.within hp))
        (hp.instruction? hj) (ho'.within hp) fuel
    | function params frameSize body =>
      rw [Stands] at h
      obtain ⟨rfl, o, br, a, o', count, size, hentry, hj, ho, hs, hr, hi, ho', hcount, hsize,
        rfl⟩ := h
      have hmake : Does program l base dest .stack (a + 2) _ :=
        .function (hp.instruction? hj) (ho.within hp) (hp.instruction? hi) (ho'.within hp)
      rwa [hcount, hsize, ← hentry] at hmake
    | call callee args =>
      rw [Stands] at h
      obtain ⟨rfl, a, fr, b, hs, hs', hi, rfl⟩ := h
      exact .call hk (fun hp hs l => ih hp hs) (StandsAll.does hp (ih hp) args hs) length_each
        (ih hp hs') (hp.instruction? hi)
    | ret value =>
      rw [Stands] at h
      obtain ⟨-, vr, a, hs, hi, rfl⟩ := h
      exact (ih hp hs).ret (hp.instruction? hi)
    | primitive op args =>
      rw [Stands] at h
      obtain ⟨harity, vr, a, hs, rfl, hi⟩ := h
      cases args with
      | nil =>
        rw [StandsFirst] at hs
        obtain ⟨rfl, rfl⟩ := hs
        cases op with
        | readLine =>
          obtain ⟨rfl, hi⟩ := hi
          exact .readLine (hp.instruction? hi)
        | _ => cases harity
      | cons arg args =>
        rw [StandsFirst] at hs
        refine Does.perform hp (ih hp hs) hi ?_
        rintro rfl
        cases harity
    | forEach refs iterators body =>
      rw [Stands] at h
      exact h.elim
    | yield value =>
      rw [Stands] at h
      exact h.elim

end

end YieldMachine
