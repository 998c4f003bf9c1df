import YieldMachine.Decimal.Shortest

/-!
# Remainder of doubles

`remainder x y` is `x - n · y` with `n` the quotient `x / y` cut off toward zero. It
is always a double, so it is computed exactly on the integers behind the operands
and has the sign of `x`.
-/

namespace YieldMachine.Decimal

/-! ## Algorithm -/

/-- The remainder of two nonnegative finite doubles, as a multiple of the finer unit.
It is below `2^53`, hence exact as a double. -/
def remainderUnits (m : Nat) (q : Int) (n : Nat) (p : Int) : Nat × Int :=
  let unit := min q p
  let a := m <<< (q - unit).toNat
  let b := n <<< (p - unit).toNat
  (a % b, unit)

/-- Remainder of a division that is cut off toward zero. -/
def remainder (x y : Float) : Float :=
  match Parts.of x, Parts.of y with
  | .nan, _ => 0.0 / 0.0
  | _, .nan => 0.0 / 0.0
  | .infinite _, _ => 0.0 / 0.0
  | .finite .., .infinite _ => x
  | .finite negative m q, .finite _ n p =>
    if n = 0 then 0.0 / 0.0
    else
      let (units, unit) := remainderUnits m q n p
      let r := Float.scaleB (Float.ofNat units) unit
      if negative then -r else r

end YieldMachine.Decimal
