/-!
# Shortest decimals

A finite double is `m · 2^q` with natural `m`. The reals that round to it form an
interval, whose ends belong to it when `m` is even. `shortest` gives the decimal
with the fewest digits inside the interval, and of those the one nearest to the
double; an exact tie goes as the caller says.
-/

namespace YieldMachine.Decimal

/-! ## Types -/

/-- The decimal `digits · 10^exponent`. -/
structure Dec where
  digits : Nat
  exponent : Int
  deriving DecidableEq, Repr

/-- Which of two equally near decimals is taken. -/
inductive Tie where
  /-- The one further from zero. -/
  | up
  /-- The one whose last digit is even. -/
  | even
  deriving DecidableEq, Repr

/-- A double taken apart: `sign`, and `m · 2^q` when it is finite. -/
inductive Parts where
  | nan
  | infinite (negative : Bool)
  | finite (negative : Bool) (m : Nat) (q : Int)
  deriving DecidableEq, Repr

/-! ## Algorithm -/

/-- Take the 64 bits of a double apart. -/
def Parts.ofBits (bits : UInt64) : Parts :=
  let n := bits.toNat
  let negative := decide (1 <<< 63 ≤ n)
  let exponent : Nat := n >>> 52 % 1 <<< 11
  let fraction := n % 1 <<< 52
  if exponent = 2047 then
    if fraction = 0 then .infinite negative else .nan
  else if exponent = 0 then .finite negative fraction (-1074)
  else .finite negative (1 <<< 52 + fraction) ((exponent : Int) - 1075)

/-- The parts of a double. -/
def Parts.of (x : Float) : Parts :=
  Parts.ofBits x.toBits

/-- Drop the zeros at the end of the digits; `fuel` bounds their number. -/
def Dec.strip : Nat → Dec → Dec
  | 0, d => d
  | fuel + 1, d =>
    if d.digits ≠ 0 ∧ d.digits % 10 = 0 then Dec.strip fuel ⟨d.digits / 10, d.exponent + 1⟩ else d

/-- A power of ten. -/
def ten (n : Nat) : Nat :=
  Nat.pow 10 n

/-- The exponent `k` with `10^k ≤ m · 2^q < 10^(k+1)`, for `m > 0`. -/
def magnitude (m : Nat) (q : Int) : Int :=
  let reaches (k : Int) : Bool :=
    ten k.toNat <<< (-q).toNat ≤ m <<< q.toNat * ten (-k).toNat
  let guess := ((m.log2 : Int) + q) * 1233 / 4096
  if reaches (guess + 1) then guess + 1 else if reaches guess then guess else guess - 1

/-- The nearest decimal with `count` digits that rounds to `m · 2^q`, if there is one.
All quantities are multiples of `2^(q-2)`, scaled so that they are natural. -/
def onGrid (tie : Tie) (m : Nat) (q k : Int) (count : Nat) : Option Dec :=
  let t := k - (count : Int) + 1
  let scale := ten (-t).toNat <<< (q - 2).toNat
  let grid := ten t.toNat <<< (2 - q).toNat
  let value := 4 * m * scale
  let low := (if m = 1 <<< 52 ∧ q > -1074 then 4 * m - 1 else 4 * m - 2) * scale
  let high := (4 * m + 2) * scale
  let inside (x : Nat) : Bool := if m % 2 = 0 then low ≤ x && x ≤ high else low < x && x < high
  let d := value / grid
  let below := value - d * grid
  let above := (d + 1) * grid - value
  match inside (d * grid), inside ((d + 1) * grid) with
  | true, true =>
    if below < above then some ⟨d, t⟩
    else if above < below then some ⟨d + 1, t⟩
    else match tie with
      | .up => some ⟨d + 1, t⟩
      | .even => some ⟨if d % 2 = 0 then d else d + 1, t⟩
  | true, false => some ⟨d, t⟩
  | false, true => some ⟨d + 1, t⟩
  | false, false => none

/-- The shortest decimal that rounds to `m · 2^q`. Seventeen digits always suffice. -/
def shortest (tie : Tie) (m : Nat) (q : Int) : Dec :=
  if m = 0 then ⟨0, 0⟩
  else
    let k := magnitude m q
    let found := ((List.range 17).map (· + 1)).findSome? (onGrid tie m q k)
    Dec.strip 18 (found.getD ⟨0, 0⟩)

end YieldMachine.Decimal
