import YieldMachine.Proofs.Value.Double

/-!
# Comparisons

Two numbers or two texts have an order, unless one of them is not a number. Equality and the
comparison operators are written apart from each other, and each of them promotes an integer
that meets a double. But they all read this one order, so they agree.

    apply_equal : BinaryOp.equal.apply a b = .bool (a.order b == some .eq)
    apply_ordered : op.apply a b = op.ordered (a.order b)
    comparisons_agree   how the six operators are tied to each other
-/

namespace YieldMachine

/-! ## Definitions -/

/-- Is the value the double that is not a number? -/
def Value.isNaN : Value → Bool
  | .float x => x.isNaN
  | _ => false

/-- Two numbers, each an integer or a double, or two texts. -/
inductive Value.Matched : Value → Value → Prop
  | ints (m n : Int64) : Matched (.int m) (.int n)
  | intFloat (m : Int64) (y : Double) : Matched (.int m) (.float y)
  | floatInt (x : Double) (n : Int64) : Matched (.float x) (.int n)
  | floats (x y : Double) : Matched (.float x) (.float y)
  | texts (s t : String) : Matched (.string s) (.string t)

/-- The order of two numbers or of two texts. -/
def Value.order : Value → Value → Option Ordering
  | .int a, .int b => some (orderInts a b)
  | .int a, .float b => orderFloats (promote a) b.toFloat
  | .float a, .int b => orderFloats a.toFloat (promote b)
  | .float a, .float b => orderFloats a.toFloat b.toFloat
  | .string a, .string b => some (orderStrings a b)
  | _, _ => none

/-- The operators that ask for one order. -/
def BinaryOp.isOrdering : BinaryOp → Bool
  | .less | .lessEqual | .greater | .greaterEqual => true
  | _ => false

/-- The one of `<`, `==` and `>` that an order makes true. -/
def BinaryOp.ofOrdering : Ordering → BinaryOp
  | .lt => .less
  | .eq => .equal
  | .gt => .greater

variable {a b : Value}

/-! ## Orders -/

theorem orderInts_swap (a b : Int64) : orderInts b a = (orderInts a b).swap :=
  compareOfLessAndEq_eq_swap Int64.le_antisymm Int64.le_total Int64.not_le

theorem orderInts_eq_eq (a b : Int64) : orderInts a b = .eq ↔ a = b :=
  compareOfLessAndEq_eq_eq Int64.le_refl Int64.not_le

theorem orderStrings_swap (a b : String) : orderStrings b a = (orderStrings a b).swap :=
  compareOfLessAndEq_eq_swap String.le_antisymm String.le_total String.not_le

theorem orderStrings_eq_eq (a b : String) : orderStrings a b = .eq ↔ a = b :=
  compareOfLessAndEq_eq_eq String.le_refl String.not_le

namespace Value

theorem Matched.symm (h : a.Matched b) : b.Matched a := by
  cases h with
  | ints m n => exact .ints n m
  | intFloat m y => exact .floatInt y m
  | floatInt x n => exact .intFloat n x
  | floats x y => exact .floats y x
  | texts s t => exact .texts t s

/-- Exchanging the operands turns the order round. -/
theorem Matched.order_swap (h : a.Matched b) : b.order a = (a.order b).map Ordering.swap := by
  cases h with
  | ints m n => exact congrArg some (orderInts_swap m n)
  | intFloat m y => exact orderFloats_swap (promote m) y.toFloat
  | floatInt x n => exact orderFloats_swap x.toFloat (promote n)
  | floats x y => exact orderFloats_swap x.toFloat y.toFloat
  | texts s t => exact congrArg some (orderStrings_swap s t)

/-- Only what is not a number has no order. -/
theorem Matched.order_eq_none (h : a.Matched b) :
    a.order b = none ↔ a.isNaN = true ∨ b.isNaN = true := by
  cases h with
  | ints | texts => simp [order, isNaN]
  | intFloat | floatInt =>
    simp only [order, isNaN, Double.isNaN, orderFloats_eq_none, promote_isNaN]
  | floats => simp only [order, isNaN, Double.isNaN, orderFloats_eq_none]

/-- Equality reads the same order as the comparisons do. -/
theorem Matched.weakEq_eq (h : a.Matched b) : a.weakEq b = (a.order b == some .eq) := by
  cases h with
  | ints m n =>
    rw [Bool.eq_iff_iff]
    simp [weakEq, order, orderInts_eq_eq]
  | intFloat | floatInt => rw [weakEq, float_beq_eq, order]
  | floats => rw [weakEq, Double.beq_eq, float_beq_eq, order]
  | texts s t =>
    rw [Bool.eq_iff_iff]
    simp [weakEq, order, orderStrings_eq_eq]

theorem Matched.firstError (h : a.Matched b) : Value.firstError [a, b] = none := by
  cases h <;> rfl

end Value

/-! ## Operators -/

namespace BinaryOp

open Value

variable {op : BinaryOp}

theorem relational_eq (h : a.Matched b) : op.relational a b = op.ordered (a.order b) := by
  cases h <;> rfl

theorem apply_ordered (h : a.Matched b) (hop : op.isOrdering = true) :
    op.apply a b = op.ordered (a.order b) := by
  unfold apply
  rw [h.firstError, ← relational_eq h]
  cases op with
  | less | lessEqual | greater | greaterEqual => rfl
  | _ => cases hop

theorem apply_equal (h : a.Matched b) :
    BinaryOp.equal.apply a b = .bool (a.order b == some .eq) := by
  unfold apply
  rw [h.firstError, ← h.weakEq_eq]

theorem apply_notEqual (h : a.Matched b) :
    BinaryOp.notEqual.apply a b = .bool !(a.order b == some .eq) := by
  unfold apply
  rw [h.firstError, ← h.weakEq_eq]

/-- Of `<`, `==` and `>`, the one that the order names is true. -/
theorem apply_eq_true_iff {o : Ordering} (h : a.Matched b) (ho : a.order b = some o)
    (hop : op ∈ [BinaryOp.less, .equal, .greater]) :
    op.apply a b = .bool true ↔ op = ofOrdering o := by
  simp only [List.mem_cons, List.not_mem_nil, or_false] at hop
  obtain rfl | rfl | rfl := hop
  · rw [apply_ordered h rfl, ho]
    cases o <;> simp [ordered, holds, ofOrdering]
  · rw [apply_equal h, ho]
    cases o <;> simp [ofOrdering]
  · rw [apply_ordered h rfl, ho]
    cases o <;> simp [ordered, holds, ofOrdering]

/-- Of two numbers or two texts exactly one of `<`, `==` and `>` is true, `<=`, `>=` and `!=`
deny `>`, `<` and `==`, and `<` is `>` with the operands exchanged. Where one of two numbers is
not a number, none of them is less, equal or greater. -/
theorem comparisons_agree (h : a.Matched b) :
    (a.isNaN = false → b.isNaN = false →
      (∃! op, op ∈ [BinaryOp.less, .equal, .greater] ∧ op.apply a b = .bool true) ∧
      BinaryOp.lessEqual.apply a b = UnaryOp.not.apply (BinaryOp.greater.apply a b) ∧
      BinaryOp.greaterEqual.apply a b = UnaryOp.not.apply (BinaryOp.less.apply a b) ∧
      BinaryOp.notEqual.apply a b = UnaryOp.not.apply (BinaryOp.equal.apply a b) ∧
      BinaryOp.less.apply a b = BinaryOp.greater.apply b a) ∧
    (a.isNaN = true ∨ b.isNaN = true →
      ∀ op ∈ [BinaryOp.less, .lessEqual, .greater, .greaterEqual, .equal],
        op.apply a b = .bool false) := by
  refine ⟨fun ha hb => ?_, fun hnan op hop => ?_⟩
  · obtain ⟨o, ho⟩ : ∃ o, a.order b = some o := by
      rw [← Option.ne_none_iff_exists', ne_eq, h.order_eq_none, ha, hb]
      decide
    have hswap : b.order a = some o.swap := by rw [h.order_swap, ho]; rfl
    refine ⟨⟨ofOrdering o, ⟨?_, ?_⟩, fun op ⟨hop, htrue⟩ => (apply_eq_true_iff h ho hop).1 htrue⟩,
      ?_, ?_, ?_, ?_⟩
    · cases o <;> decide
    · exact (apply_eq_true_iff h ho (by cases o <;> decide)).2 rfl
    · rw [apply_ordered h rfl, apply_ordered h rfl, ho]
      cases o <;> rfl
    · rw [apply_ordered h rfl, apply_ordered h rfl, ho]
      cases o <;> rfl
    · rw [apply_notEqual h, apply_equal h]
      rfl
    · rw [apply_ordered h rfl, apply_ordered h.symm rfl, ho, hswap]
      cases o <;> rfl
  · have ho : a.order b = none := h.order_eq_none.2 hnan
    by_cases hordering : op.isOrdering = true
    · rw [apply_ordered h hordering, ho]
      rfl
    · simp only [List.mem_cons, List.not_mem_nil, or_false] at hop
      obtain rfl | rfl | rfl | rfl | rfl := hop
      case inr.inr.inr.inr => rw [apply_equal h, ho]; rfl
      all_goals exact absurd rfl hordering

/-- An integer that no double is equal to is rounded on both paths alike. -/
theorem comparisons_agree_rounded :
    (Value.int 9007199254740993).Matched (.float (.ofBits 0x4340000000000000)) ∧
      (Value.int 9007199254740993).isNaN = false ∧
      (Value.float (.ofBits 0x4340000000000000)).isNaN = false ∧
      (∃! op, op ∈ [BinaryOp.less, .equal, .greater] ∧
        op.apply (.int 9007199254740993) (.float (.ofBits 0x4340000000000000)) = .bool true) ∧
      BinaryOp.equal.apply (.int 9007199254740993) (.float (.ofBits 0x4340000000000000)) =
        .bool true ∧
      (Value.float (.ofBits 0x7ff8000000000000)).isNaN = true ∧
      BinaryOp.less.apply (.int 1) (.float (.ofBits 0x7ff8000000000000)) = .bool false := by
  have hnumber : (Value.float (.ofBits 0x4340000000000000)).isNaN = false := by decide
  have hnan : (Value.float (.ofBits 0x7ff8000000000000)).isNaN = true := by decide
  exact ⟨.intFloat _ _, rfl, hnumber, ((comparisons_agree (.intFloat _ _)).1 rfl hnumber).1, rfl,
    hnan, (comparisons_agree (.intFloat _ _)).2 (.inr hnan) .less (by decide)⟩

end BinaryOp

end YieldMachine
