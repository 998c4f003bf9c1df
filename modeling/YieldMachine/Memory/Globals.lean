import Std.Data.HashMap
import YieldMachine.Value.Error

/-!
# Global variables

The globals of a program by name, in the order in which they were first set. A name
that was never set reads as an error value.

    g.index[name]? = some i ↔ the entry at i has that name
-/

namespace YieldMachine

/-! ## Types -/

/-- Names with their values, and the place of every name. -/
structure Globals where
  entries : Array (String × Value)
  index : Std.HashMap String Nat
  index_iff : ∀ (name : String) (i : Nat),
    index[name]? = some i ↔ entries[i]?.map Prod.fst = some name

/-! ## Lemmas -/

theorem Globals.index_set {entries : Array (String × Value)} {index : Std.HashMap String Nat}
    {name : String} {i : Nat} (v : Value)
    (h : ∀ (name : String) (i : Nat), index[name]? = some i ↔ entries[i]?.map Prod.fst = some name)
    (hi : index[name]? = some i) (other : String) (j : Nat) :
    index[other]? = some j ↔
      (entries.setIfInBounds i (name, v))[j]?.map Prod.fst = some other := by
  have hname := (h name i).1 hi
  rw [h, Array.getElem?_setIfInBounds]
  by_cases hij : i = j
  · subst hij
    by_cases hlt : i < entries.size
    · simp only [hlt, if_true, Option.map_some, hname]
    · simp [hlt] at hname
  · simp [hij]

theorem Globals.index_push {entries : Array (String × Value)} {index : Std.HashMap String Nat}
    {name : String} (v : Value)
    (h : ∀ (name : String) (i : Nat), index[name]? = some i ↔ entries[i]?.map Prod.fst = some name)
    (hn : index[name]? = none) (other : String) (j : Nat) :
    (index.insert name entries.size)[other]? = some j ↔
      (entries.push (name, v))[j]?.map Prod.fst = some other := by
  rw [Std.HashMap.getElem?_insert, Array.getElem?_push]
  by_cases hname : name = other
  · subst hname
    simp only [beq_self_eq_true, if_true, Option.some.injEq]
    split
    · next hj => simp [hj]
    · next hj =>
      rw [← h, hn]
      simp [eq_comm, hj]
  · rw [if_neg (by simpa using hname), h]
    split
    · next hj => subst hj; simp [hname]
    · rfl

/-! ## Operations -/

namespace Globals

/-- No globals. -/
def empty : Globals where
  entries := #[]
  index := ∅
  index_iff := by simp

instance : Inhabited Globals := ⟨empty⟩

/-- The value of a name that was set. -/
def get? (g : Globals) (name : String) : Option Value :=
  match g.index[name]? with
  | some i => g.entries[i]?.map Prod.snd
  | none => none

/-- Read a name; one that was never set gives an error value. -/
def get (g : Globals) (name : String) : Value :=
  (g.get? name).getD (ValueError.undefinedGlobal name).value

/-- Set a name. A new one goes behind the others. -/
def set (g : Globals) (name : String) (v : Value) : Globals :=
  match g with
  | ⟨entries, index, index_iff⟩ =>
    match h : index[name]? with
    | some i => ⟨entries.setIfInBounds i (name, v), index, index_set v index_iff h⟩
    | none =>
      ⟨entries.push (name, v), index.insert name entries.size, index_push v index_iff h⟩

/-! ## What a name holds -/

theorem get?_eq_some_iff {g : Globals} {name : String} {v : Value} :
    g.get? name = some v ↔ ∃ i : Nat, g.entries[i]? = some (name, v) := by
  constructor
  · intro h
    unfold get? at h
    split at h
    · next i hi =>
      have hn := (g.index_iff name i).1 hi
      cases he : g.entries[i]? with
      | none => simp [he] at hn
      | some entry =>
        obtain ⟨n, w⟩ := entry
        simp only [he, Option.map_some, Option.some.injEq] at hn h
        exact ⟨i, by rw [he, hn, h]⟩
    · exact absurd h (by simp)
  · rintro ⟨i, hi⟩
    have h : g.index[name]? = some i := (g.index_iff name i).2 (by simp [hi])
    simp [get?, h, hi]

theorem get?_set_self (g : Globals) (name : String) (v : Value) :
    (g.set name v).get? name = some v := by
  obtain ⟨entries, index, index_iff⟩ := g
  rw [get?_eq_some_iff]
  unfold set
  dsimp only
  split
  · next i hi =>
    have hlt : i < entries.size := by
      have hn := (index_iff name i).1 hi
      apply Decidable.byContradiction
      intro hge
      simp [Array.getElem?_eq_none (Nat.le_of_not_lt hge)] at hn
    exact ⟨i, by simp [hlt]⟩
  · exact ⟨entries.size, by simp⟩

theorem get?_set_of_ne (g : Globals) {name other : String} (h : other ≠ name) (v : Value) :
    (g.set name v).get? other = g.get? other := by
  ext w
  rw [get?_eq_some_iff, get?_eq_some_iff]
  obtain ⟨entries, index, index_iff⟩ := g
  unfold set
  dsimp only
  split
  · next i hi =>
    refine exists_congr fun j => ?_
    rw [Array.getElem?_setIfInBounds]
    split
    · next hij =>
      subst hij
      have hn := (index_iff name i).1 hi
      constructor
      · intro hw
        split at hw
        · exact absurd (congrArg Prod.fst (Option.some.inj hw)).symm h
        · exact absurd hw (by simp)
      · intro hw
        rw [hw] at hn
        exact absurd (Option.some.inj hn) h
    · rfl
  · refine exists_congr fun j => ?_
    rw [Array.getElem?_push]
    split
    · next hj =>
      subst hj
      constructor
      · intro hw
        exact absurd (congrArg Prod.fst (Option.some.inj hw)).symm h
      · intro hw
        exact absurd hw (by simp)
    · rfl

end Globals

end YieldMachine
