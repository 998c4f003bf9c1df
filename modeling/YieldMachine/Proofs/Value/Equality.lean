import Mathlib
import YieldMachine.Value.Basic

/-!
# The two equalities

Both equalities go through arrays element by element. So each of them holds of two values
exactly when these have the same positions and agree at every one, an array being compared
there by its size alone. What the two say about each other is then a matter of one position:
they differ on functions and on an integer that meets a double, and on nothing else.

    Elementwise.iff_positions : eq x y = true ↔ ∀ p, Option.Rel (Head eq) (x.at? p) (y.at? p)
    equalities_related   what the two equalities have to do with each other
-/

namespace YieldMachine
namespace Value

/-! ## Definitions -/

/-- What stands at a position of a value. A position lists the numbers of the elements on the
way to it, the outermost first. -/
def at? : List Nat → Value → Option Value
  | [], v => some v
  | i :: p, .array items => items[i]?.bind (at? p)
  | _ :: _, _ => none

/-- No function at any depth. -/
def FunctionFree (v : Value) : Prop :=
  ∀ p f, v.at? p ≠ some (.function f)

/-- No double at any depth that is not a number. -/
def NaNFree (v : Value) : Prop :=
  ∀ p x, v.at? p = some (.float x) → x.isNaN = false

/-- At some position an integer of one value meets a double of the other. -/
def Promotes (v w : Value) : Prop :=
  ∃ p n x, v.at? p = some (.int n) ∧ w.at? p = some (.float x) ∨
    v.at? p = some (.float x) ∧ w.at? p = some (.int n)

/-- Do two values agree, the elements of arrays left aside? -/
def Head (eq : Value → Value → Bool) : Value → Value → Prop
  | .array xs, .array ys => xs.size = ys.size
  | x, y => eq x y = true

/-- An equality that goes through arrays element by element. -/
structure Elementwise (eq : Value → Value → Bool) : Prop where
  arrays : ∀ xs ys : Array Value, eq (.array xs) (.array ys) = true ↔
    List.Forall₂ (fun x y => eq x y = true) xs.toList ys.toList
  kinds : ∀ x y, eq x y = true → (x.kind = .array ↔ y.kind = .array)

/-! ## Positions -/

variable {eq eq' : Value → Value → Bool} {x y : Value}

theorem at?_of_not_array (h : x.kind ≠ .array) (i : Nat) (p : List Nat) : x.at? (i :: p) = none := by
  cases x with
  | array => exact absurd rfl h
  | _ => rfl

theorem exists_array (h : x.kind = .array) : ∃ items, x = .array items := by
  cases x with
  | array items => exact ⟨items, rfl⟩
  | _ => cases h

/-- An induction that goes from the elements of an array to the array. -/
theorem elements_induction {P : Value → Prop}
    (step : ∀ v, (∀ items, v = .array items → ∀ w ∈ items, P w) → P v) (v : Value) : P v :=
  step v fun _ _ w _ => elements_induction step w
termination_by v
decreasing_by
  rename_i items hv hw
  subst hv
  have := Array.sizeOf_lt_of_mem hw
  simp only [Value.array.sizeOf_spec]
  omega

theorem rel_getElem? {R : Value → Value → Prop} {xs ys : List Value} (h : List.Forall₂ R xs ys)
    (i : Nat) : Option.Rel R xs[i]? ys[i]? := by
  induction h generalizing i with
  | nil => exact .none
  | cons hxy _ ih =>
    cases i with
    | zero => exact .some hxy
    | succ i => exact ih i

theorem head_of_not_arrays (h : ¬(x.kind = .array ∧ y.kind = .array)) :
    Head eq x y ↔ eq x y = true := by
  unfold Head
  split
  · exact absurd ⟨rfl, rfl⟩ h
  · rfl

namespace Elementwise

theorem head (h : Elementwise eq) (hxy : eq x y = true) : Head eq x y := by
  by_cases hx : x.kind = .array
  · obtain ⟨xs, rfl⟩ := exists_array hx
    obtain ⟨ys, rfl⟩ := exists_array ((h.kinds _ _ hxy).1 hx)
    exact ((h.arrays xs ys).1 hxy).length_eq
  · exact (head_of_not_arrays (mt And.left hx)).2 hxy

/-- Equal values agree at every position. -/
theorem rel_at? (h : Elementwise eq) (hxy : eq x y = true) (p : List Nat) :
    Option.Rel (Head eq) (x.at? p) (y.at? p) := by
  induction p generalizing x y with
  | nil => exact .some (h.head hxy)
  | cons i p ih =>
    by_cases hx : x.kind = .array
    · obtain ⟨xs, rfl⟩ := exists_array hx
      obtain ⟨ys, rfl⟩ := exists_array ((h.kinds _ _ hxy).1 hx)
      have hi := rel_getElem? ((h.arrays xs ys).1 hxy) i
      rw [Array.getElem?_toList, Array.getElem?_toList] at hi
      rw [at?, at?]
      generalize xs[i]? = v, ys[i]? = w at hi
      cases hi with
      | none => exact .none
      | some hvw => exact ih hvw
    · rw [at?_of_not_array hx, at?_of_not_array (mt (h.kinds _ _ hxy).2 hx)]
      exact .none

/-- Values that agree at every position are equal. -/
theorem eq_of_rel_at? (h : Elementwise eq)
    (hp : ∀ p, Option.Rel (Head eq) (x.at? p) (y.at? p)) : eq x y = true := by
  induction x using elements_induction generalizing y with
  | step x ih =>
    have hhead : Head eq x y := by
      cases hp [] with
      | some hhead => exact hhead
    by_cases harrays : x.kind = .array ∧ y.kind = .array
    · obtain ⟨xs, rfl⟩ := exists_array harrays.1
      obtain ⟨ys, rfl⟩ := exists_array harrays.2
      rw [h.arrays, List.forall₂_iff_get]
      refine ⟨hhead, fun i hi hi' => ih xs rfl _ (Array.getElem_mem hi) fun p => ?_⟩
      have hbelow := hp (i :: p)
      rwa [at?, at?, Array.getElem?_eq_getElem hi, Array.getElem?_eq_getElem hi'] at hbelow
    · exact (head_of_not_arrays harrays).1 hhead

theorem iff_positions (h : Elementwise eq) :
    eq x y = true ↔ ∀ p, Option.Rel (Head eq) (x.at? p) (y.at? p) :=
  ⟨h.rel_at?, h.eq_of_rel_at?⟩

/-- A value is equal to itself when each of its positions is. -/
theorem self_iff (h : Elementwise eq) :
    eq x x = true ↔ ∀ p v, x.at? p = some v → Head eq v v := by
  rw [h.iff_positions]
  constructor
  · intro hrel p v hv
    have hp := hrel p
    rw [hv] at hp
    cases hp with
    | some hhead => exact hhead
  · intro hself p
    cases hv : x.at? p with
    | none => exact .none
    | some v => exact .some (hself p v hv)

/-- One equality gives another where it does so at every position. -/
theorem transfer (h : Elementwise eq) (h' : Elementwise eq') (hxy : eq x y = true)
    (hheads : ∀ p v w, x.at? p = some v → y.at? p = some w → Head eq v w → Head eq' v w) :
    eq' x y = true := by
  rw [h'.iff_positions]
  intro p
  have hp := h.rel_at? hxy p
  cases hv : x.at? p with
  | none =>
    rw [hv] at hp
    cases hw : y.at? p with
    | none => exact .none
    | some w => rw [hw] at hp; cases hp
  | some v =>
    rw [hv] at hp
    cases hw : y.at? p with
    | none => rw [hw] at hp; cases hp
    | some w =>
      rw [hw] at hp
      cases hp with
      | some hhead => exact .some (hheads p v w hv hw hhead)

/-- An equality that is symmetric at every position is symmetric. -/
theorem comm (h : Elementwise eq) (hheads : ∀ v w, Head eq v w → Head eq w v) (x y : Value) :
    eq x y = eq y x := by
  have hturn : ∀ {x y : Value}, eq x y = true → eq y x = true := by
    intro x y hxy
    rw [h.iff_positions]
    intro p
    have hp := h.rel_at? hxy p
    generalize x.at? p = v, y.at? p = w at hp
    cases hp with
    | none => exact .none
    | some hhead => exact .some (hheads _ _ hhead)
  exact Bool.eq_iff_iff.2 ⟨hturn, hturn⟩

end Elementwise

/-! ## Weak and strict equality -/

attribute [local simp] Head weakEq weakEqList strictEq strictEqList Double.beq_eq Double.isNaN

theorem weakEqList_iff (xs ys : List Value) :
    weakEqList xs ys = true ↔ List.Forall₂ (fun x y => x.weakEq y = true) xs ys := by
  induction xs generalizing ys with
  | nil => cases ys <;> simp
  | cons x xs ih => cases ys <;> simp [ih]

theorem strictEqList_iff (xs ys : List Value) :
    strictEqList xs ys = true ↔ List.Forall₂ (fun x y => x.strictEq y = true) xs ys := by
  induction xs generalizing ys with
  | nil => cases ys <;> simp
  | cons x xs ih => cases ys <;> simp [ih]

theorem weakEq_elementwise : Elementwise weakEq where
  arrays xs ys := by rw [weakEq, weakEqList_iff]
  kinds x y h := by
    cases x with
    | array =>
      cases y with
      | array => rfl
      | _ => cases h
    | _ =>
      cases y with
      | array => cases h
      | _ => simp [kind]

theorem strictEq_elementwise : Elementwise strictEq where
  arrays xs ys := by rw [strictEq, strictEqList_iff]
  kinds x y h := by
    cases x with
    | array =>
      cases y with
      | array => rfl
      | _ => cases h
    | _ =>
      cases y with
      | array => cases h
      | _ => simp [kind]

variable {v w : Value}

theorem weak_head_comm (v w : Value) (h : Head weakEq v w) : Head weakEq w v := by
  cases v <;> cases w <;> simp_all [BEq.comm]

theorem strict_head_comm (v w : Value) (h : Head strictEq v w) : Head strictEq w v := by
  cases v <;> cases w <;> simp_all [BEq.comm]

/-- Strictly equal heads are weakly equal unless they are functions. -/
theorem weak_head_of_strict (h : Head strictEq v w) (hf : ∀ f, v ≠ .function f) :
    Head weakEq v w := by
  cases v <;> cases w <;> simp_all

/-- Weakly equal heads are strictly equal unless an integer meets a double. -/
theorem strict_head_of_weak (h : Head weakEq v w)
    (hpair : ∀ n x, ¬(v = .int n ∧ w = .float x ∨ v = .float x ∧ w = .int n)) :
    Head strictEq v w := by
  cases v <;> cases w <;> simp_all

theorem weak_head_self_iff :
    Head weakEq v v ↔ (∀ f, v ≠ .function f) ∧ ∀ x, v = .float x → x.isNaN = false := by
  cases v <;> simp

theorem strict_head_self_iff : Head strictEq v v ↔ ∀ x, v = .float x → x.isNaN = false := by
  cases v <;> simp

theorem weakEq_self_iff : x.weakEq x = true ↔ x.FunctionFree ∧ x.NaNFree := by
  rw [weakEq_elementwise.self_iff]
  constructor
  · intro h
    exact ⟨fun p f hf => (weak_head_self_iff.1 (h p _ hf)).1 f rfl,
      fun p d hd => (weak_head_self_iff.1 (h p _ hd)).2 d rfl⟩
  · rintro ⟨hfun, hnan⟩ p v hv
    refine weak_head_self_iff.2 ⟨?_, ?_⟩
    · rintro f rfl
      exact hfun p f hv
    · rintro d rfl
      exact hnan p d hv

theorem strictEq_self_iff : x.strictEq x = true ↔ x.NaNFree := by
  rw [strictEq_elementwise.self_iff]
  constructor
  · exact fun h p d hd => strict_head_self_iff.1 (h p _ hd) d rfl
  · rintro hnan p v hv
    refine strict_head_self_iff.2 ?_
    rintro d rfl
    exact hnan p d hv

theorem weakEq_of_strictEq (h : x.strictEq y = true) (hx : x.FunctionFree) :
    x.weakEq y = true := by
  refine strictEq_elementwise.transfer weakEq_elementwise h fun p v w hv _ hhead => ?_
  refine weak_head_of_strict hhead ?_
  rintro f rfl
  exact hx p f hv

theorem strictEq_of_weakEq (h : x.weakEq y = true) (hxy : ¬x.Promotes y) :
    x.strictEq y = true := by
  refine weakEq_elementwise.transfer strictEq_elementwise h fun p v w hv hw hhead => ?_
  refine strict_head_of_weak hhead ?_
  rintro n d (⟨rfl, rfl⟩ | ⟨rfl, rfl⟩)
  · exact hxy ⟨p, n, d, .inl ⟨hv, hw⟩⟩
  · exact hxy ⟨p, n, d, .inr ⟨hv, hw⟩⟩

/-- Both equalities are symmetric. A value is weakly equal to itself unless it holds a function
or what is not a number, and strictly unless it holds the latter. Without functions strict
equality gives weak equality, and weak equality gives strict equality unless an integer meets
a double. -/
theorem equalities_related (x y : Value) :
    x.weakEq y = y.weakEq x ∧
    x.strictEq y = y.strictEq x ∧
    (x.strictEq y = true → x.FunctionFree → y.FunctionFree → x.weakEq y = true) ∧
    (x.weakEq x = true ↔ x.FunctionFree ∧ x.NaNFree) ∧
    (x.strictEq x = true ↔ x.NaNFree) ∧
    (x.weakEq y = true → ¬x.Promotes y → x.strictEq y = true) :=
  ⟨weakEq_elementwise.comm weak_head_comm x y, strictEq_elementwise.comm strict_head_comm x y,
    fun h hx _ => weakEq_of_strictEq h hx, weakEq_self_iff, strictEq_self_iff, strictEq_of_weakEq⟩

/-- Zeros of both signs are one number to both equalities, though two constants. -/
theorem equalities_related_zeros :
    (Value.array #[.float (.ofBits 0)]).strictEq
        (.array #[.float (.ofBits 0x8000000000000000)]) = true ∧
      (Value.array #[.float (.ofBits 0)]).FunctionFree ∧
      (Value.array #[.float (.ofBits 0x8000000000000000)]).FunctionFree ∧
      (Value.array #[.float (.ofBits 0)]).weakEq
        (.array #[.float (.ofBits 0x8000000000000000)]) = true ∧
      ¬(Value.array #[.float (.ofBits 0)]).Promotes
        (.array #[.float (.ofBits 0x8000000000000000)]) := by
  have hstrict : (Value.array #[.float (.ofBits 0)]).strictEq
      (.array #[.float (.ofBits 0x8000000000000000)]) = true := by decide
  have hzero : (Value.array #[.float (.ofBits 0)]).FunctionFree :=
    ((equalities_related _ .nil).2.2.2.1.1 (by decide)).1
  have hminus : (Value.array #[.float (.ofBits 0x8000000000000000)]).FunctionFree :=
    ((equalities_related _ .nil).2.2.2.1.1 (by decide)).1
  refine ⟨hstrict, hzero, hminus, (equalities_related _ _).2.2.1 hstrict hzero hminus, ?_⟩
  rintro ⟨_ | ⟨_ | i, _ | ⟨j, p⟩⟩, n, d, ⟨h, -⟩ | ⟨-, h⟩⟩ <;> cases h

end Value
end YieldMachine
