/-
Powers of complex numbers.

A power has one value here.  A whole exponent means repeated multiplication, which stays
exact where the numbers allow it; any other exponent goes through the principal logarithm.
-/
import Branchwise.ComplexFloat.Elementary

namespace Branchwise.ComplexFloat

/-- Multiplies `product` by the squares of `base` that the binary digits of `n` above its
lowest one ask for. -/
def multiplySquares (base product : ComplexFloat) (n : Nat) : ComplexFloat :=
  if n ≤ 1 then product
  else
    let square := base * base
    multiplySquares square (if n / 2 % 2 = 1 then product * square else product) (n / 2)
termination_by n

/-- The power to a positive whole number.  The factors of two of the exponent are squared
away first, so the product starts at the lowest binary digit that is one. -/
def powNat (base : ComplexFloat) (n : Nat) : ComplexFloat :=
  if 0 < n ∧ n % 2 = 0 then powNat (base * base) (n / 2)
  else multiplySquares base base n
termination_by n

/-- The power to a whole number. -/
def powInt (base : ComplexFloat) (n : Int) : ComplexFloat :=
  if n = 0 then one
  else if n < 0 then powNat base.inverse n.natAbs
  else powNat base n.natAbs

/-- The power by way of the principal logarithm. -/
def powPrincipal (base exponent : ComplexFloat) : ComplexFloat :=
  if exponent == zero then one else exp (exponent * base.ln)

/-- The exponent as a whole number, if it is one of at most 31 binary digits. -/
def wholeExponent? (exponent : ComplexFloat) : Option Int :=
  if exponent.im == 0 then
    (Binary64.toInt? exponent.re).filter fun n => n.natAbs < Nat.pow 2 31
  else none

/-- Zero to a power with positive real part is zero, where the logarithm would fail. -/
def pow (base exponent : ComplexFloat) : ComplexFloat :=
  match wholeExponent? exponent with
  | some n => base.powInt n
  | none =>
    if base == zero && exponent.re > 0 then zero else base.powPrincipal exponent

end Branchwise.ComplexFloat
