import YieldMachine.Proofs.Compile.Lowered

/-!
# Shared constants

A constant that has a key is in a pool at most once, and adding it when it is there
gives its number and changes nothing. A pool that keeps the constants of another one
has them in front.

    p.get? i = some v → p.add v = (i, p)
-/

namespace YieldMachine

namespace Pool

variable {p q : Pool} {v : Value} {i j : Nat}

/-- A shared constant has one number. -/
theorem get?_inj (hv : v.key?.isSome) (hi : p.constants[i]? = some v)
    (hj : p.constants[j]? = some v) : i = j := by
  obtain ⟨k, hk⟩ := Option.isSome_iff_exists.1 hv
  have hindex : ∀ {n : Nat}, p.constants[n]? = some v → p.index[k]? = some n := fun hn =>
    (p.index_iff k _).2 (by rw [hn]; exact hk)
  exact Option.some.inj ((hindex hi).symm.trans (hindex hj))

/-- A shared constant that is there is not added again. -/
theorem add_of_get? (hv : v.key?.isSome) (hi : p.constants[i]? = some v) : p.add v = (i, p) := by
  obtain ⟨k, hk⟩ := Option.isSome_iff_exists.1 hv
  have hindex : p.index[k]? = some i := (p.index_iff k i).2 (by rw [hi]; exact hk)
  obtain ⟨constants, index, index_iff⟩ := p
  unfold add
  dsimp only
  split
  · next hnone =>
    rw [hk] at hnone
    cases hnone
  · next k' hk' =>
    cases hk.symm.trans hk'
    split
    · next n hn =>
      cases hindex.symm.trans hn
      rfl
    · next hn =>
      cases hindex.symm.trans hn

/-- A constant goes behind the others when it is not there, or is not shared. -/
theorem add_of_absent (h : v.key?.isSome → ∀ i : Nat, p.constants[i]? ≠ some v) :
    (p.add v).1 = p.size ∧ (p.add v).2.constants = p.constants.push v := by
  obtain ⟨constants, index, index_iff⟩ := p
  unfold add
  dsimp only
  split
  · exact ⟨rfl, rfl⟩
  · next key hv =>
    split
    · next i hi =>
      exfalso
      obtain ⟨w, hw, hkey⟩ := Option.bind_eq_some_iff.1 ((index_iff key i).1 hi)
      cases Value.key?_inj hkey hv
      exact h (by rw [hv]; rfl) i hw
    · exact ⟨rfl, rfl⟩

/-- Adding either finds the constant, or puts it behind the others. -/
theorem add_cases (p : Pool) (v : Value) :
    (v.key?.isSome ∧ p.constants[(p.add v).1]? = some v ∧ (p.add v).2 = p) ∨
    ((v.key?.isSome → ∀ i : Nat, p.constants[i]? ≠ some v) ∧
      (p.add v).1 = p.size ∧ (p.add v).2.constants = p.constants.push v) := by
  by_cases h : v.key?.isSome ∧ ∃ i : Nat, p.constants[i]? = some v
  · obtain ⟨hv, i, hi⟩ := h
    left
    rw [add_of_get? hv hi]
    exact ⟨hv, hi, rfl⟩
  · right
    have habsent : v.key?.isSome → ∀ i : Nat, p.constants[i]? ≠ some v :=
      fun hv i hi => h ⟨hv, i, hi⟩
    exact ⟨habsent, add_of_absent habsent⟩

theorem Within.isPrefix (h : p.Within q) : p.constants.toList <+: q.constants.toList := by
  rw [List.prefix_iff_getElem?]
  intro i hi
  rw [Array.getElem?_toList]
  exact h i _ (by simp)

end Pool

end YieldMachine
