import YieldMachine.Decimal.Numeral
import YieldMachine.Json.Basic

/-!
# Numbers in JSON

A number without point and exponent is an integer when it fits in 64 bits, and `-0`
is not one. Any other number is a double: its digits make a significand of 64 bits,
digits beyond it only count as powers of ten, and the significand is scaled by one
power of ten. A number too large for a double is refused.
-/

namespace YieldMachine.Json

open Decimal

/-! ## Types -/

/-- The parts of a written number. -/
structure Lexeme where
  negative : Bool
  whole : List Char
  fraction : List Char
  exponent : Option Int

/-- What a number is read as. -/
inductive Number where
  | natural (n : Nat)
  | negative (n : Int)
  | float (x : Float)

/-! ## Grammar -/

/-- The exponent behind a number: `e`, an optional sign and digits. -/
def exponent? (cs : List Char) : Option (Option Int) :=
  match cs with
  | [] => some none
  | c :: rest => if c = 'e' ∨ c = 'E' then (readInt? rest).map some else none

/-- Digits behind a point, at least one, and the exponent behind them. -/
def fraction? (cs : List Char) : Option (List Char × Option Int) :=
  match cs with
  | '.' :: rest =>
    let digits := rest.takeWhile isDigit
    if digits.isEmpty then none
    else (exponent? (rest.dropWhile isDigit)).map fun e => (digits, e)
  | _ => (exponent? cs).map fun e => ([], e)

/-- An unsigned number; only a zero may start with one. -/
def unsigned? (negative : Bool) (cs : List Char) : Option Lexeme :=
  let whole := cs.takeWhile isDigit
  if whole.isEmpty || (whole.head? == some '0' && whole.length > 1) then none
  else (fraction? (cs.dropWhile isDigit)).map fun (fraction, exponent) =>
    ⟨negative, whole, fraction, exponent⟩

/-- Take a written number apart. -/
def Lexeme.of? (cs : List Char) : Option Lexeme :=
  match cs with
  | '-' :: rest => unsigned? true rest
  | _ => unsigned? false cs

/-! ## Value -/

/-- Append a digit to a significand, if 64 bits can hold the result. -/
def appendDigit? (significand : Nat) (c : Char) : Option Nat :=
  let next := significand * 10 + (digit? c).getD 0
  if next < UInt64.size then some next else none

/-- The significand of the whole digits, and how many of them it leaves out. -/
def wholePart (significand : Nat) : List Char → Nat × Nat
  | [] => (significand, 0)
  | c :: cs =>
    match appendDigit? significand c with
    | some next => wholePart next cs
    | none => (significand, cs.length + 1)

/-- Go on with the digits behind the point; each one taken lowers the exponent. -/
def fractionPart (significand : Nat) (exponent : Int) : List Char → Nat × Int
  | [] => (significand, exponent)
  | c :: cs =>
    match appendDigit? significand c with
    | some next => fractionPart next (exponent - 1) cs
    | none => (significand, exponent)

/-- Multiply or divide by one power of ten; far below the range first by `10^308`, as
often as `steps` says. None when the result is too large. -/
def scale : Nat → Float → Int → Option Float
  | 0, _, _ => some 0.0
  | steps + 1, x, e =>
    if e.natAbs ≤ 308 then
      let power := Float.ofScientific 1 false e.natAbs
      if e < 0 then some (x / power)
      else if (x * power).isFinite then some (x * power) else none
    else if x == 0.0 then some x
    else if 0 ≤ e then none
    else scale steps (x / Float.ofScientific 1 false 308) (e + 308)

/-- A significand times a power of ten, as a double. -/
def scaled (negative : Bool) (significand : Nat) (e : Int) : Option Number :=
  (scale 16 (UInt64.ofNat significand).toFloat e).map fun x =>
    .float (if negative then -x else x)

/-- The value of a number. -/
def Lexeme.value (l : Lexeme) : Option Number :=
  let (significand, left) := wholePart 0 l.whole
  if l.fraction.isEmpty && l.exponent.isNone && left == 0 then
    if !l.negative then some (.natural significand)
    else if 0 < significand ∧ significand ≤ 1 <<< 63 then some (.negative (-(significand : Int)))
    else some (.float (-(UInt64.ofNat significand).toFloat))
  else
    let (significand, e) := fractionPart significand left l.fraction
    scaled l.negative significand (e + l.exponent.getD 0)

/-- What a JSON value is read as, when it is a number. -/
def number? : Json → Option Number
  | .number lexeme => (Lexeme.of? lexeme.toList).bind Lexeme.value
  | _ => none

/-- A natural number below a bound. -/
def natBelow? (bound : Nat) (j : Json) : Option Nat :=
  match j.number? with
  | some (.natural n) => if n < bound then some n else none
  | _ => none

/-- An integer. -/
def int? (j : Json) : Option Int :=
  match j.number? with
  | some (.natural n) => some n
  | some (.negative n) => some n
  | _ => none

/-- An integer that fits in 64 bits, signed. -/
def int64? (j : Json) : Option Int64 := do
  let n ← j.int?
  if n ≤ Int64.maxValue.toInt then some (Int64.ofInt n) else none

/-- A double; integers are rounded to one. -/
def float? (j : Json) : Option Float :=
  match j.number? with
  | some (.natural n) => some (UInt64.ofNat n).toFloat
  | some (.negative n) => some (Int64.ofInt n).toFloat
  | some (.float x) => some x
  | none => none

end YieldMachine.Json
