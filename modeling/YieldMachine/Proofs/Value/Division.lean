import YieldMachine.Value.Arithmetic

/-!
# Laws of integer arithmetic

Integers wrap at 64 bits, and division cuts the quotient off toward zero. Quotient and
remainder make up the dividend again in the same wrapping arithmetic. They do so without a
wrap too, but for one pair: the least integer divided by -1, whose quotient wraps to itself.

    wrapped : a / b * b + a % b = a
    unwrapped : (a / b).toInt * b.toInt + (a % b).toInt = a.toInt
    division_exact   the same of the operators, with the size and sign of the remainder
-/

namespace YieldMachine
namespace Division

variable {a b : Int64}

/-! ## Quotient and remainder -/

/-- Only where the quotient is one more than the greatest integer does it wrap. -/
theorem toInt_quotient (h : ¬(a = Int64.minValue ∧ b = -1)) :
    (a / b).toInt = a.toInt.tdiv b.toInt := by
  by_cases ha : a = Int64.minValue
  · exact Int64.toInt_div_of_ne_right a b fun hb => h ⟨ha, hb⟩
  · exact Int64.toInt_div_of_ne_left a b ha

theorem unwrapped (h : ¬(a = Int64.minValue ∧ b = -1)) :
    (a / b).toInt * b.toInt + (a % b).toInt = a.toInt := by
  rw [toInt_quotient h, Int64.toInt_mod, Int.tdiv_mul_add_tmod]

theorem wrapped (a b : Int64) : a / b * b + a % b = a := by
  by_cases h : a = Int64.minValue ∧ b = -1
  · obtain ⟨rfl, rfl⟩ := h
    decide
  · rw [← Int64.toInt_inj, Int64.toInt_add, Int64.toInt_mul, Int.bmod_add_bmod, unwrapped h]
    exact Int64.toInt_bmod a

theorem remainder_lt (hb : b ≠ 0) : (a % b).toInt.natAbs < b.toInt.natAbs := by
  have hpos : b.toInt ≠ 0 := fun h => hb (Int64.toInt_inj.1 h)
  rw [Int64.toInt_mod, Int.natAbs_tmod]
  exact Nat.mod_lt _ (Int.natAbs_pos.2 hpos)

/-- A remainder that is not zero has the sign of the dividend. -/
theorem remainder_sign (a b : Int64) : a % b = 0 ∨ (a % b).toInt.sign = a.toInt.sign := by
  rw [← Int64.toInt_inj, Int64.toInt_mod, Int.sign_tmod]
  split
  · next hdvd => exact .inl (Int.tmod_eq_zero_of_dvd hdvd)
  · exact .inr rfl

end Division

/-! ## Operators -/

namespace BinaryOp

theorem divide_ints {a b : Int64} (hb : b ≠ 0) :
    BinaryOp.divide.apply (.int a) (.int b) = .int (a / b) :=
  if_neg hb

theorem modulo_ints {a b : Int64} (hb : b ≠ 0) :
    BinaryOp.modulo.apply (.int a) (.int b) = .int (a % b) :=
  if_neg hb

/-- A zero divisor is refused by both operators. With any other, the quotient times the divisor
plus the remainder is the dividend, in the wrapping operators and, save for the least integer
over -1, in exact numbers; the remainder is nearer to zero than the divisor, and has the sign of
the dividend unless it is zero. Adding a number and taking it away again changes nothing, nor
does negating twice. -/
theorem division_exact (a b : Int64) :
    (b = 0 → ∀ op ∈ [BinaryOp.divide, .modulo],
      op.apply (.int a) (.int b) = ValueError.zeroDivision.value) ∧
    (b ≠ 0 → ∃ q r : Int64,
      BinaryOp.divide.apply (.int a) (.int b) = .int q ∧
      BinaryOp.modulo.apply (.int a) (.int b) = .int r ∧
      BinaryOp.add.apply (BinaryOp.multiply.apply (.int q) (.int b)) (.int r) = .int a ∧
      (¬(a = Int64.minValue ∧ b = -1) → q.toInt * b.toInt + r.toInt = a.toInt) ∧
      r.toInt.natAbs < b.toInt.natAbs ∧
      (r = 0 ∨ r.toInt.sign = a.toInt.sign)) ∧
    BinaryOp.subtract.apply (BinaryOp.add.apply (.int a) (.int b)) (.int b) = .int a ∧
    UnaryOp.negate.apply (UnaryOp.negate.apply (.int a)) = .int a := by
  refine ⟨?zero, ?quotient, ?sum, ?negation⟩
  case zero =>
    rintro rfl op hop
    simp only [List.mem_cons, List.not_mem_nil, or_false] at hop
    obtain rfl | rfl := hop <;> rfl
  case quotient =>
    intro hb
    exact ⟨a / b, a % b, divide_ints hb, modulo_ints hb, congrArg Value.int (Division.wrapped a b),
      Division.unwrapped, Division.remainder_lt hb, Division.remainder_sign a b⟩
  case sum => exact congrArg Value.int (Int64.add_sub_cancel a b)
  case negation => exact congrArg Value.int Int64.neg_neg

/-- The one pair whose quotient wraps still adds up; and -7 over 2 leaves -1, not 1. -/
theorem division_exact_signs :
    BinaryOp.modulo.apply (.int 5) (.int 0) = ValueError.zeroDivision.value ∧
      (-1 : Int64) ≠ 0 ∧
      (∃ q r : Int64, BinaryOp.divide.apply (.int Int64.minValue) (.int (-1)) = .int q ∧
        BinaryOp.modulo.apply (.int Int64.minValue) (.int (-1)) = .int r ∧
        BinaryOp.add.apply (BinaryOp.multiply.apply (.int q) (.int (-1))) (.int r) =
          .int Int64.minValue) ∧
      (2 : Int64) ≠ 0 ∧ ¬((-7 : Int64) = Int64.minValue ∧ (2 : Int64) = -1) ∧
      ∃ q r : Int64, BinaryOp.divide.apply (.int (-7)) (.int 2) = .int q ∧
        BinaryOp.modulo.apply (.int (-7)) (.int 2) = .int r ∧
        q.toInt * 2 + r.toInt = -7 ∧ (r = 0 ∨ r.toInt.sign = -1) := by
  have hone : (-1 : Int64) ≠ 0 := by decide
  have htwo : (2 : Int64) ≠ 0 := by decide
  have hpair : ¬((-7 : Int64) = Int64.minValue ∧ (2 : Int64) = -1) := by decide
  obtain ⟨p, s, hp, hs, hleast, -⟩ := (division_exact Int64.minValue (-1)).2.1 hone
  obtain ⟨q, r, hq, hr, -, hexact, -, hsign⟩ := (division_exact (-7) 2).2.1 htwo
  exact ⟨(division_exact 5 0).1 rfl .modulo (by decide), hone, ⟨p, s, hp, hs, hleast⟩, htwo, hpair,
    q, r, hq, hr, hexact hpair, hsign⟩

end BinaryOp

end YieldMachine
