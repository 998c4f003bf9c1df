import Mathlib.Data.Fintype.EquivFin
import YieldMachine.Proofs.Compile.Counting
import YieldMachine.Proofs.Twin.Lowering

/-!
# Pools with more in them

What a statement that does not compile adds to a pool stays there. A pool with more in it
numbers later constants differently, but holds them too: each is at its old number, or at
a number that fits on both sides. So as long as the numbers of the fuller pool fit, those
of the other one do, since each of them needs a number of its own.

    Coupling.fuller   the second pool is the fuller one
-/

namespace YieldMachine

/-! ## Definitions -/

/-- The second pool holds every constant of the first: at the same number, or at one that can
be addressed where the first can be. -/
def Pools.Fuller (s : Pools) : Prop :=
  ∀ (i : Nat) (v : Value), s.first.constants[i]? = some v →
    s.second.constants[i]? = some v ∨
    v.key?.isSome ∧ i < Pool.room ∧ ∃ j < Pool.room, s.second.constants[j]? = some v

/-- Both operands name the same constant or variable. -/
inductive Operand.Alike (s : Pools) : Operand → Operand → Prop
  | plain {o : Operand} : o.isPooled = false → Operand.Alike s o o
  | global {i j : Nat} {name : String} : s.first.constants[i]? = some (.string name) →
      s.second.constants[j]? = some (.string name) → Operand.Alike s ⟨.global, i⟩ ⟨.global, j⟩
  | data {i j : Nat} {v : Value} : v.key?.isSome → s.first.constants[i]? = some v →
      s.second.constants[j]? = some v → Operand.Alike s ⟨.data, i⟩ ⟨.data, j⟩

/-- Is it a constant whose number does not fit? -/
def CompileError.isPoolFull : CompileError → Bool
  | .addressOverflow .dataIndex _ | .addressOverflow .globalName _ => true
  | _ => false

/-! ## Operands -/

theorem Operand.Alike.grow {s t : Pools} {o o' : Operand} (hw : s.Within t) (h : Alike s o o') :
    Alike t o o' := by
  cases h with
  | plain h => exact .plain h
  | global h h' => exact .global (hw.first _ _ h) (hw.second _ _ h')
  | data hv h h' => exact .data hv (hw.first _ _ h) (hw.second _ _ h')

theorem Operand.Alike.mode_eq {s : Pools} {o o' : Operand} (h : Alike s o o') :
    o'.mode = o.mode := by
  cases h <;> rfl

/-- Numbers agree on one side where they agree on the other, for a constant has one number. -/
theorem Operand.Alike.eq_iff {s : Pools} {o o' r r' : Operand} (h : Alike s o o')
    (h' : Alike s r r') : o = r ↔ o' = r' := by
  have hmode : o'.mode = r'.mode ↔ o.mode = r.mode := by rw [h.mode_eq, h'.mode_eq]
  have hone : ∀ {i j k l : Nat} {v w : Value}, v.key?.isSome →
      s.first.constants[i]? = some v → s.second.constants[j]? = some v →
      s.first.constants[k]? = some w → s.second.constants[l]? = some w → (i = k ↔ j = l) := by
    intro i j k l v w hv hi hj hk hl
    constructor
    · rintro rfl
      cases hi.symm.trans hk
      exact Pool.get?_inj hv hj hl
    · rintro rfl
      cases hj.symm.trans hl
      exact Pool.get?_inj hv hi hk
  have hpooled : ∀ {o r : Operand}, o.isPooled = false → r.isPooled = true → o ≠ r := by
    rintro o _ ho hr rfl
    rw [ho] at hr
    cases hr
  cases h with
  | plain ho =>
    cases h' with
    | plain => exact Iff.rfl
    | global => exact iff_of_false (hpooled ho rfl) (hpooled ho rfl)
    | data => exact iff_of_false (hpooled ho rfl) (hpooled ho rfl)
  | global hi hj =>
    cases h' with
    | plain hr => exact iff_of_false (hpooled hr rfl).symm (hpooled hr rfl).symm
    | global hk hl => simpa [Int.natCast_inj] using hone rfl hi hj hk hl
    | data => exact iff_of_false (by simp) (by simp)
  | data hv hi hj =>
    cases h' with
    | plain hr => exact iff_of_false (hpooled hr rfl).symm (hpooled hr rfl).symm
    | global => exact iff_of_false (by simp) (by simp)
    | data _ hk hl => simpa [Int.natCast_inj] using hone hv hi hj hk hl

/-! ## Adding constants -/

namespace Pools

variable {s t : Pools} {v : Value}

theorem Fuller.of_within (h : s.first.Within s.second) : s.Fuller :=
  fun i v hi => .inl (h i v hi)

theorem Fuller.second {q : Pool} (h : s.Fuller) (hq : s.second.Within q) :
    Fuller ⟨s.first, q⟩ := by
  intro i v hi
  obtain hsame | ⟨hv, hlt, j, hj, hvj⟩ := h i v hi
  · exact .inl (hq _ _ hsame)
  · exact .inr ⟨hv, hlt, j, hj, hq _ _ hvj⟩

/-- While a constant of the fuller pool can be addressed that the other one lacks, the other
one has room: each number that can be addressed would else belong to one of its own. -/
theorem Fuller.room {j : Nat} (h : s.Fuller) (hj : j < Pool.room)
    (hv : s.second.constants[j]? = none ∨ s.second.constants[j]? = some v)
    (hnew : ∀ i : Nat, s.first.constants[i]? ≠ some v) : s.first.size < Pool.room := by
  by_contra hfull
  have hplace : ∀ i : Fin Pool.room, ∃ k : Fin Pool.room, ∃ w,
      s.first.constants[i.1]? = some w ∧ s.second.constants[k.1]? = some w ∧
        (k ≠ i → w.key?.isSome) := by
    intro i
    obtain ⟨w, hi⟩ : ∃ w, s.first.constants[i.1]? = some w :=
      ⟨_, Array.getElem?_eq_getElem (Nat.lt_of_lt_of_le i.2 (Nat.le_of_not_lt hfull))⟩
    obtain hsame | ⟨hw, -, k, hk, hwk⟩ := h _ _ hi
    · exact ⟨i, _, hi, hsame, fun hne => absurd rfl hne⟩
    · exact ⟨⟨k, hk⟩, _, hi, hwk, fun _ => hw⟩
  choose place held hfirst hsecond hkey using hplace
  have hinj : Function.Injective place := by
    intro i k hik
    have hheld : held i = held k := Option.some.inj
      ((hsecond i).symm.trans ((congrArg (fun n => s.second.constants[n.1]?) hik).trans (hsecond k)))
    by_cases hi : place i = i
    · by_cases hk : place k = k
      · rw [← hi, hik, hk]
      · exact Fin.ext (Pool.get?_inj (hkey k hk) (hheld ▸ hfirst i) (hfirst k))
    · exact Fin.ext (Pool.get?_inj (hkey i hi) (hfirst i) (hheld ▸ hfirst k))
  obtain ⟨i, hi⟩ := Finite.injective_iff_surjective.1 hinj ⟨j, hj⟩
  have hij := hsecond i
  rw [hi] at hij
  obtain hnone | hsome := hv
  · cases hnone.symm.trans hij
  · cases hsome.symm.trans hij
    exact hnew i (hfirst i)

/-- Where the number of a constant of the fuller pool can be addressed, so can its number in
the other one. -/
theorem Fuller.add (h : s.Fuller) (hv : v.key?.isSome) (hfits : (s.second.add v).1 < Pool.room) :
    (s.first.add v).1 < Pool.room ∧ Fuller ⟨(s.first.add v).2, (s.second.add v).2⟩ := by
  obtain ⟨hgrows, hplace⟩ := s.second.add_spec v
  by_cases hold : ∃ i : Nat, s.first.constants[i]? = some v
  · obtain ⟨i, hi⟩ := hold
    rw [Pool.add_of_get? hv hi]
    refine ⟨?_, h.second hgrows⟩
    obtain hsame | ⟨-, hlt, -⟩ := h i v hi
    · rwa [Pool.add_of_get? hv hsame] at hfits
    · exact hlt
  · rw [not_exists] at hold
    obtain ⟨hnumber, hconstants⟩ := Pool.add_of_absent fun _ => hold
    have hroom : s.first.size < Pool.room := by
      refine h.room hfits ?_ hold
      rcases hc : s.second.constants[(s.second.add v).1]? with _ | w
      · exact .inl rfl
      · exact .inr ((hgrows _ _ hc).symm.trans hplace)
    rw [hnumber]
    refine ⟨hroom, fun i w hi => ?_⟩
    dsimp only at hi ⊢
    rw [hconstants, Array.getElem?_push] at hi
    split at hi
    · next heq =>
      cases hi
      subst heq
      exact .inr ⟨hv, hroom, _, hfits, hplace⟩
    · exact h.second hgrows i w hi

end Pools

/-! ## The coupling -/

open Lowering

/-- A constant that is added to both pools, and addressed. -/
theorem Lowering.pairs_added {v : Value} {mode : Mode} {field : AddressField} {b b' : Workbench}
    (hfield : ∀ n, (CompileError.addressOverflow field n).isPoolFull) (hv : v.key?.isSome)
    (hmode : ∀ {s : Pools} {i j : Nat}, s.first.constants[i]? = some v →
      s.second.constants[j]? = some v → Operand.Alike s ⟨mode, i⟩ ⟨mode, j⟩)
    (hb : (Pools.of b b').Fuller) :
    Lowering.Pairs Pools.Fuller (fun e => e.isPoolFull) Operand.Alike
      (do let i ← Lowering.add v; check (Operand.checked mode i field))
      (do let i ← Lowering.add v; check (Operand.checked mode i field)) b b' := by
  obtain ⟨hgrows, hplace⟩ := b.pool.add_spec v
  obtain ⟨hgrows', hplace'⟩ := b'.pool.add_spec v
  unfold Lowering.Pairs
  simp only [Bind.bind, EStateM.bind, Lowering.add_run, Operand.checked_natCast]
  by_cases hfits : (b'.pool.add v).1 < Pool.room
  · obtain ⟨hroom, hfuller⟩ : (b.pool.add v).1 < Pool.room ∧ _ := hb.add hv hfits
    rw [if_pos hfits, if_pos hroom]
    exact ⟨_, _, rfl, hfuller, ⟨hgrows, hgrows'⟩, hmode hplace hplace'⟩
  · rw [if_neg hfits]
    exact .inl (hfield _)

/-- The second lowering starts from the fuller pool. -/
def Coupling.fuller : Coupling where
  Good := Pools.Fuller
  Gone e := e.isPoolFull
  Same := Operand.Alike
  grow := Operand.Alike.grow
  mode := Operand.Alike.mode_eq
  plain := .plain
  eq_iff := Operand.Alike.eq_iff
  constant hv hb := pairs_added (fun _ => rfl) hv (.data hv) hb
  global hb := pairs_added (fun _ => rfl) rfl .global hb

end YieldMachine
