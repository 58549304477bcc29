/-
The elementary functions of a complex number, at their principal values.

They are the textbook formulas over the real functions.  Only `exp` and `sqrt` single out
cases: `exp` where the formula would turn an infinite or undefined component into a worse
one, `sqrt` on the two axes, where the exact root has a simple form.
-/
import Branchwise.Binary64.Nearest
import Branchwise.ComplexFloat.Basic

namespace Branchwise

/-- The number nearest to π. -/
def pi : Float := 3.141592653589793

/-- The number nearest to Euler's number. -/
def euler : Float := 2.718281828459045

namespace ComplexFloat

/-! ### Polar form -/

/-- The absolute value, which overflows only if it is itself too large. -/
def norm (z : ComplexFloat) : Float :=
  Binary64.hypot z.re z.im

/-- The argument, from `-π` to `π`. -/
def arg (z : ComplexFloat) : Float :=
  Float.atan2 z.im z.re

/-- The number with this absolute value and this argument. -/
def ofPolar (r theta : Float) : ComplexFloat :=
  ⟨r * theta.cos, r * theta.sin⟩

/-! ### Logarithm, exponential, square root -/

/-- The principal logarithm. -/
def ln (z : ComplexFloat) : ComplexFloat :=
  ⟨z.norm.log, z.arg⟩

/-- The exponential.  A real part that is infinite or NaN is looked at first, for there the polar
form may lose a component that is known. -/
def exp (z : ComplexFloat) : ComplexFloat :=
  if z.re.isInf then
    if z.re < 0 then
      if z.im.isFinite then ofPolar z.re.exp z.im else zero
    else if z.im.isInf then ⟨z.re, Binary64.nan⟩
    else if z.im == 0 || z.im.isNaN then z
    else ofPolar z.re.exp z.im
  else if z.re.isNaN && z.im == 0 then z
  else ofPolar z.re.exp z.im

/-- The principal square root.  On the negative real axis the sign of a zero imaginary part
tells the two sides of the cut apart. -/
def sqrt (z : ComplexFloat) : ComplexFloat :=
  if z.im == 0 then
    if Binary64.isNegative z.re then
      let y := (-z.re).sqrt
      ⟨0, if Binary64.isNegative z.im then -y else y⟩
    else ⟨z.re.sqrt, z.im⟩
  else if z.re == 0 then
    let x := (z.im.abs / 2).sqrt
    ⟨x, if Binary64.isNegative z.im then -x else x⟩
  else ofPolar z.norm.sqrt (z.arg / 2)

/-! ### Circular and hyperbolic functions -/

/-- The sine, by the addition formula. -/
def sin (z : ComplexFloat) : ComplexFloat :=
  ⟨z.re.sin * z.im.cosh, z.re.cos * z.im.sinh⟩

/-- The cosine, by the addition formula. -/
def cos (z : ComplexFloat) : ComplexFloat :=
  ⟨z.re.cos * z.im.cosh, -z.re.sin * z.im.sinh⟩

/-- The tangent, by the double angle. -/
def tan (z : ComplexFloat) : ComplexFloat :=
  let a := z.re + z.re
  let b := z.im + z.im
  divReal ⟨a.sin, b.sinh⟩ (a.cos + b.cosh)

/-- The hyperbolic sine, by the addition formula. -/
def sinh (z : ComplexFloat) : ComplexFloat :=
  ⟨z.re.sinh * z.im.cos, z.re.cosh * z.im.sin⟩

/-- The hyperbolic cosine, by the addition formula. -/
def cosh (z : ComplexFloat) : ComplexFloat :=
  ⟨z.re.cosh * z.im.cos, z.re.sinh * z.im.sin⟩

/-- The hyperbolic tangent, by the double angle. -/
def tanh (z : ComplexFloat) : ComplexFloat :=
  let a := z.re + z.re
  let b := z.im + z.im
  divReal ⟨a.sinh, b.sin⟩ (a.cosh + b.cos)

end ComplexFloat

end Branchwise
