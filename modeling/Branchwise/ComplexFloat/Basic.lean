/-
Complex numbers with binary64 components.

Each operation is one fixed sequence of rounded operations on the components, so its
result is determined to the last bit.  In particular the product and the quotient are the
textbook formulas without scaling: they overflow where those do.
-/
import Branchwise.Decimal.Positional

namespace Branchwise

/-- The number `re + im · i`. -/
structure ComplexFloat where
  re : Float
  im : Float
deriving DecidableEq

namespace ComplexFloat

/-- Equality of numbers, not of bits: the zeros are equal and NaN equals nothing. -/
instance : BEq ComplexFloat where
  beq z w := z.re == w.re && z.im == w.im

/-- A real number as a complex one. -/
def ofReal (x : Float) : ComplexFloat :=
  ⟨x, 0⟩

/-- The number zero, no component of it negative. -/
def zero : ComplexFloat := ofReal 0

/-- The number one. -/
def one : ComplexFloat := ofReal 1

/-- The imaginary unit. -/
def i : ComplexFloat := ⟨0, 1⟩

/-! ### Arithmetic -/

/-- The negative, by components; zeros turn their signs too. -/
instance : Neg ComplexFloat where
  neg z := ⟨-z.re, -z.im⟩

/-- The sum, by components. -/
instance : Add ComplexFloat where
  add z w := ⟨z.re + w.re, z.im + w.im⟩

/-- The difference, by components. -/
instance : Sub ComplexFloat where
  sub z w := ⟨z.re - w.re, z.im - w.im⟩

/-- The product, as it is multiplied out. -/
instance : Mul ComplexFloat where
  mul z w := ⟨z.re * w.re - z.im * w.im, z.re * w.im + z.im * w.re⟩

/-- The square of the absolute value. -/
def normSquare (z : ComplexFloat) : Float :=
  z.re * z.re + z.im * z.im

/-- The quotient, extended by the conjugate of the divisor. -/
instance : Div ComplexFloat where
  div z w :=
    ⟨(z.re * w.re + z.im * w.im) / w.normSquare, (z.im * w.re - z.re * w.im) / w.normSquare⟩

/-- The inverse, by the conjugate.  The quotient of one may differ from it in the sign of a zero. -/
def inverse (z : ComplexFloat) : ComplexFloat :=
  ⟨z.re / z.normSquare, -z.im / z.normSquare⟩

/-! ### Arithmetic with a real number

These touch only the components they name, which shows in the sign of a zero. -/

/-- The sum with a real number. -/
def addReal (z : ComplexFloat) (x : Float) : ComplexFloat :=
  ⟨z.re + x, z.im⟩

/-- The number less a real number. -/
def subReal (z : ComplexFloat) (x : Float) : ComplexFloat :=
  ⟨z.re - x, z.im⟩

/-- The quotient by a real number. -/
def divReal (z : ComplexFloat) (x : Float) : ComplexFloat :=
  ⟨z.re / x, z.im / x⟩

/-! ### Text -/

/-- Both components, the second with its sign as the mark between them.  A zero or NaN is
not less than zero, so it follows a plus sign as it is written by itself. -/
def toText (z : ComplexFloat) : String :=
  let part (x : Float) := String.ofList (Decimal.write x)
  if z.im < 0 then part z.re ++ "-" ++ part (-z.im) ++ "i" else part z.re ++ "+" ++ part z.im ++ "i"

end ComplexFloat

end Branchwise
