import YieldMachine.Decimal.Shortest

/-!
# Written decimals

A `Style` says how a double is written: between which powers of ten it stands in
positional notation, which way a tie among shortest decimals goes, and whether a
positive exponent has a plus sign. Positional numbers always have a point; outside
the range an exponent is written, as in `1e16` or `1e+16` and `1.5e-7`.
-/

namespace YieldMachine.Decimal

/-! ## Types -/

/-- How doubles are written. With the digits read as `0.d₁d₂… · 10^p`, a number is
positional for `least ≤ p ≤ most`. With `plus`, an exponent that is not negative has
a plus sign. -/
structure Style where
  least : Int
  most : Int
  tie : Tie
  plus : Bool
  deriving DecidableEq, Repr

/-! ## Algorithm -/

/-- The decimal digits of a number. -/
def digitChars (n : Nat) : List Char :=
  Nat.toDigits 10 n

/-- An integer in decimal. -/
def intText (n : Int) : String :=
  match n with
  | .ofNat k => String.ofList (digitChars k)
  | .negSucc k => String.ofList ('-' :: digitChars (k + 1))

/-- Digits with the point after the first `p` of them, zeros filled in on either side. -/
def positional (digits : List Char) (p : Int) : List Char :=
  if p ≤ 0 then ['0', '.'] ++ List.replicate (-p).toNat '0' ++ digits
  else
    let n := p.toNat
    if digits.length ≤ n then digits ++ List.replicate (n - digits.length) '0' ++ ['.', '0']
    else digits.take n ++ ['.'] ++ digits.drop n

/-- An exponent with its sign; a plus is written only where `plus` says so. -/
def exponentText (plus : Bool) (e : Int) : List Char :=
  if plus ∧ 0 ≤ e then '+' :: (intText e).toList else (intText e).toList

/-- One digit, the rest after a point, and a power of ten. -/
def scientific (plus : Bool) (digits : List Char) (p : Int) : List Char :=
  let mantissa := match digits with
    | [] => ['0']
    | [d] => [d]
    | d :: rest => d :: '.' :: rest
  mantissa ++ ['e'] ++ exponentText plus (p - 1)

/-- The text of a nonnegative decimal. -/
def Style.write (style : Style) (d : Dec) : List Char :=
  if d.digits = 0 then ['0', '.', '0']
  else
    let digits := digitChars d.digits
    let p := (digits.length : Int) + d.exponent
    if style.least ≤ p ∧ p ≤ style.most then positional digits p
    else scientific style.plus digits p

/-- The text of a finite double. -/
def Style.finite (style : Style) (negative : Bool) (m : Nat) (q : Int) : String :=
  let text := style.write (shortest style.tie m q)
  String.ofList (if negative then '-' :: text else text)

/-- The text of a double; zero keeps its sign. -/
def Style.text (style : Style) (x : Float) : String :=
  match Parts.of x with
  | .nan => "NaN"
  | .infinite negative => if negative then "-inf" else "inf"
  | .finite negative m q => style.finite negative m q

end YieldMachine.Decimal
