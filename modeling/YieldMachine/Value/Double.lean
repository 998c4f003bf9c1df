/-!
# Doubles

A double is kept by its 64 bits. As a number it is a `Float`, which knows one not-a-number
only; the bits tell two of them apart, as values that are stored and constants that are shared
have to. Arithmetic is that of numbers. Only the sign is a matter of the bits: changing it turns
the sign bit of a not-a-number, too.
-/

namespace YieldMachine

/-! ## Types -/

/-- A double, by its bits. -/
@[ext] structure Double where
  ofBits ::
  toBits : UInt64
  deriving Inhabited

namespace Double

/-! ## Numbers -/

/-- The double as a number. -/
def toFloat (x : Double) : Float :=
  .ofBits x.toBits

/-- The bits of a number. -/
def ofFloat (x : Float) : Double :=
  ⟨x.toBits⟩

instance : Coe Float Double := ⟨ofFloat⟩

/-- Doubles compare as numbers: zeros of both signs are equal, and what is not a number equals
nothing. -/
instance : BEq Double := ⟨fun x y => x.toFloat == y.toFloat⟩

/-- Is it no number? -/
def isNaN (x : Double) : Bool :=
  x.toFloat.isNaN

/-- The double with the other sign. -/
def neg (x : Double) : Double :=
  ⟨x.toBits ^^^ 0x8000000000000000⟩

theorem beq_eq (x y : Double) : (x == y) = (x.toFloat == y.toFloat) := rfl

end Double

end YieldMachine
