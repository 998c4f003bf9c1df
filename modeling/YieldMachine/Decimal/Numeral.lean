import YieldMachine.Decimal.Shortest

/-!
# Numerals

Readers for integers and decimals written in ASCII digits, as whole texts: an
optional sign, then digits; a decimal may have a point, an exponent, or be one of
the words `inf`, `infinity` and `nan` in any case. A decimal is read as the double
nearest to it. An exponent takes digits only while it is below `2^16`, so that
`1e1000000` counts as `1e100000`.
-/

namespace YieldMachine.Decimal

/-! ## Digits -/

/-- The value of an ASCII digit. -/
def digit? (c : Char) : Option Nat :=
  if '0' ≤ c ∧ c ≤ '9' then some (c.toNat - '0'.toNat) else none

/-- Is the character an ASCII digit? -/
def isDigit (c : Char) : Bool :=
  (digit? c).isSome

/-- The number that a list of digits spells, after the digits of `seen`. -/
def numberFrom (seen : Nat) (cs : List Char) : Nat :=
  cs.foldl (fun n c => n * 10 + (digit? c).getD 0) seen

/-- A natural number: digits only, at least one. -/
def readNat? (cs : List Char) : Option Nat :=
  if cs.isEmpty || !cs.all isDigit then none else some (numberFrom 0 cs)

/-! ## Integers -/

/-- An integer with an optional sign. -/
def readInt? (cs : List Char) : Option Int :=
  match cs with
  | '-' :: rest => (readNat? rest).map fun n => -(n : Int)
  | '+' :: rest => (readNat? rest).map fun n => (n : Int)
  | _ => (readNat? cs).map fun n => (n : Int)

/-- Append a digit to a number, as long as it stays below a bound. -/
def appendBelow? (bound n : Nat) (c : Char) : Option Nat :=
  (digit? c).bind fun d => if n * 10 + d < bound then some (n * 10 + d) else none

/-- A natural number below a bound: digits only, at least one. -/
def readNatBelow? (bound : Nat) (cs : List Char) : Option Nat :=
  if cs.isEmpty then none else cs.foldlM (appendBelow? bound) 0

/-- An integer that fits in 64 bits, signed. -/
def readInt64? (s : String) : Option Int64 :=
  match s.toList with
  | '-' :: rest => (readNatBelow? (1 <<< 63 + 1) rest).map fun n => Int64.ofInt (-(n : Int))
  | '+' :: rest => (readNatBelow? (1 <<< 63) rest).map fun n => Int64.ofInt n
  | cs => (readNatBelow? (1 <<< 63) cs).map fun n => Int64.ofInt n

/-- A natural number that fits in 64 bits, with an optional plus sign. -/
def readWord? (s : String) : Option Nat :=
  match s.toList with
  | '+' :: rest => readNatBelow? UInt64.size rest
  | cs => readNatBelow? UInt64.size cs

/-! ## Decimals -/

/-- Append a digit to an exponent; one that has reached `2^16` stays as it is. -/
def appendExponent (n : Nat) (c : Char) : Nat :=
  if n < UInt16.size then n * 10 + (digit? c).getD 0 else n

/-- The digits of an exponent, at least one. -/
def readPower? (cs : List Char) : Option Nat :=
  if cs.isEmpty || !cs.all isDigit then none else some (cs.foldl appendExponent 0)

/-- The exponent after `e` or `E`, with an optional sign, or 0 where there is none. -/
def readExponent? (cs : List Char) : Option Int :=
  match cs with
  | [] => some 0
  | c :: rest =>
    if c = 'e' ∨ c = 'E' then
      match rest with
      | '-' :: digits => (readPower? digits).map fun n => -(n : Int)
      | '+' :: digits => (readPower? digits).map fun n => (n : Int)
      | _ => (readPower? rest).map fun n => (n : Int)
    else none

/-- How many significant digits are kept. A decimal that lies halfway between two
neighbouring doubles has at most 767 of them, so of all that follows it only counts
whether it is zero. -/
def keptDigits : Nat := 800

/-- The decimal that digits spell, times a power of ten; the digits that are not kept
stand together as one, if any of them is not zero. -/
def Dec.ofDigits (cs : List Char) (exponent : Int) : Dec :=
  let significant := cs.dropWhile (· == '0')
  let kept := numberFrom 0 (significant.take keptDigits)
  let rest := significant.drop keptDigits
  if rest.all (· == '0') then ⟨kept, exponent + rest.length⟩
  else ⟨kept * 10 + 1, exponent + rest.length - 1⟩

/-- An unsigned decimal with at least one digit before or after its point. -/
def readDec? (cs : List Char) : Option Dec :=
  let whole := cs.takeWhile isDigit
  let rest := cs.dropWhile isDigit
  let (fraction, rest) := match rest with
    | '.' :: more => (more.takeWhile isDigit, more.dropWhile isDigit)
    | _ => ([], rest)
  if whole.isEmpty && fraction.isEmpty then none
  else (readExponent? rest).map fun e => .ofDigits (whole ++ fraction) (e - fraction.length)

/-- The double nearest to a decimal. Past the ends of the range it is infinite or zero,
so that no huge power of ten is formed. -/
def Dec.toFloat (d : Dec) : Float :=
  let top := (d.digits.log2 : Int) * 1233 / 4096 + d.exponent
  if d.digits = 0 then 0.0
  else if top > 330 then 1.0 / 0.0
  else if top < -360 then 0.0
  else Float.ofScientific d.digits (decide (d.exponent < 0)) d.exponent.natAbs

/-- ASCII letters in lower case. -/
def lower (cs : List Char) : List Char :=
  cs.map Char.toLower

/-- An unsigned decimal, infinity or not-a-number. -/
def readMagnitude? (cs : List Char) : Option Float :=
  match readDec? cs with
  | some d => some d.toFloat
  | none =>
    if lower cs = ['i', 'n', 'f'] ∨ lower cs = ['i', 'n', 'f', 'i', 'n', 'i', 't', 'y'] then
      some (1.0 / 0.0)
    else if lower cs = ['n', 'a', 'n'] then some (0.0 / 0.0)
    else none

/-- A decimal with an optional sign. -/
def readFloat? (s : String) : Option Float :=
  match s.toList with
  | '-' :: rest => (readMagnitude? rest).map fun x => -x
  | '+' :: rest => readMagnitude? rest
  | cs => readMagnitude? cs

/-! ## Lemmas -/

theorem le_numberFrom (n : Nat) (cs : List Char) : n ≤ numberFrom n cs := by
  induction cs generalizing n with
  | nil => exact Nat.le_refl n
  | cons c cs ih => exact Nat.le_trans (by omega) (ih (n * 10 + (digit? c).getD 0))

theorem foldlM_appendBelow? (bound n : Nat) (cs : List Char) (h : n < bound) :
    cs.foldlM (appendBelow? bound) n =
      if cs.all isDigit ∧ numberFrom n cs < bound then some (numberFrom n cs) else none := by
  induction cs generalizing n with
  | nil => simp [numberFrom, h]
  | cons c cs ih =>
    cases hc : digit? c with
    | none => simp [appendBelow?, isDigit, hc]
    | some d =>
      have step : numberFrom n (c :: cs) = numberFrom (n * 10 + d) cs := by
        simp [numberFrom, hc]
      by_cases hd : n * 10 + d < bound
      · simp [appendBelow?, isDigit, hc, hd, step, ih _ hd]
      · have := le_numberFrom (n * 10 + d) cs
        simp [appendBelow?, hc, hd, step]
        omega

/-- Reading below a bound is reading and then comparing with the bound. -/
theorem readNatBelow?_eq_filter (bound : Nat) (cs : List Char) (h : 0 < bound) :
    readNatBelow? bound cs = (readNat? cs).filter (· < bound) := by
  cases cs with
  | nil => rfl
  | cons c cs =>
    rw [readNatBelow?, readNat?, foldlM_appendBelow? bound 0 _ h]
    generalize (c :: cs).all isDigit = digits
    cases digits <;> simp [Option.filter]

end YieldMachine.Decimal
