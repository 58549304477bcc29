/-
The values of each function at one number.

However many functions there are, they take their values in few ways: one value, one
logarithm inside and outside which all is single valued, two independent logarithms, or
roots.  `Function.scheme` says which way each function goes; how many values there are and
in what order depends on that alone.
-/
import Branchwise.Branches.Basic
import Branchwise.Vocabulary

namespace Branchwise

/-- How a function takes its values. -/
inductive Function.Scheme
  /-- A single value. -/
  | single (value : ComplexFloat → ComplexFloat)
  /-- One value for each branch of the logarithm of `inner`. -/
  | logarithm (inner outer : ComplexFloat → ComplexFloat)
  /-- One value for each pair of branches of two logarithms. -/
  | logarithms (left right : ComplexFloat → ComplexFloat)
      (combine : ComplexFloat → ComplexFloat → ComplexFloat)
  /-- The same, with the values that are zero left out and the inverse taken of the rest. -/
  | inverseLogarithms (left right : ComplexFloat → ComplexFloat)
      (combine : ComplexFloat → ComplexFloat → ComplexFloat)
  /-- The roots of a degree. -/
  | roots (degree : Int)

namespace Function

open ComplexFloat

/-- A quarter of the circle. -/
def quarterTurn : ComplexFloat :=
  ofReal 1.5707963267948966

/-! ### The numbers whose logarithms the inverse functions take -/

/-- `arcsin z` is `-i` times the logarithm of this. -/
def asinInner (z : ComplexFloat) : ComplexFloat :=
  i * z + (one - z * z).sqrt

/-- `arcsin z`, given the logarithm of `asinInner z`. -/
def asinOuter (w : ComplexFloat) : ComplexFloat :=
  -i * w

/-- `arctan z` is `i / 2` times the difference of the logarithms of this and of `atgRight z`. -/
def atgLeft (z : ComplexFloat) : ComplexFloat :=
  one - i * z

/-- The number whose logarithm `arctan` subtracts. -/
def atgRight (z : ComplexFloat) : ComplexFloat :=
  one + i * z

/-- `arctan z`, given the logarithms of `atgLeft z` and `atgRight z`. -/
def atgCombine (a b : ComplexFloat) : ComplexFloat :=
  i.divReal 2 * (a - b)

/-- `artanh z` is half the difference of the logarithms of this and of `arthRight z`. -/
def arthLeft (z : ComplexFloat) : ComplexFloat :=
  one + z

/-- The number whose logarithm `artanh` subtracts. -/
def arthRight (z : ComplexFloat) : ComplexFloat :=
  one - z

/-- `artanh z`, given the logarithms of `arthLeft z` and `arthRight z`. -/
def arthCombine (a b : ComplexFloat) : ComplexFloat :=
  (a - b).divReal 2

/-! ### The values -/

/-- How each function takes its values.  `acos z` and `actg z` are a quarter turn less a value of
`asin` at `z` and of `atg` at `1 / z`; `arcth z` is the inverse of a value of `arth` at `1 / z`. -/
def scheme : Function → Scheme
  | .real => .single fun z => ofReal z.re
  | .im => .single fun z => ofReal z.im
  | .abs => .single fun z => ofReal z.norm
  | .phi => .single fun z => ofReal z.arg
  | .sin => .single ComplexFloat.sin
  | .cos => .single ComplexFloat.cos
  | .tg => .single ComplexFloat.tan
  | .ctg => .single fun z => z.tan.inverse
  | .sh => .single ComplexFloat.sinh
  | .ch => .single ComplexFloat.cosh
  | .th => .single ComplexFloat.tanh
  | .cth => .single fun z => z.tanh.inverse
  | .sch => .single fun z => z.cosh.inverse
  | .csch => .single fun z => z.sinh.inverse
  | .exp => .single ComplexFloat.exp
  | .ln => .logarithm id id
  | .sqrt => .roots 2
  | .asin => .logarithm asinInner asinOuter
  | .acos => .logarithm asinInner fun w => quarterTurn - asinOuter w
  | .atg => .logarithms atgLeft atgRight atgCombine
  | .actg =>
    .logarithms (fun z => atgLeft z.inverse) (fun z => atgRight z.inverse) fun a b =>
      quarterTurn - atgCombine a b
  | .arsh => .logarithm (fun z => z + ((z * z).addReal 1).sqrt) id
  | .arch => .logarithm (fun z => z + ((z * z).subReal 1).sqrt) id
  | .arth => .logarithms arthLeft arthRight arthCombine
  | .arcth =>
    .inverseLogarithms (fun z => arthLeft z.inverse) (fun z => arthRight z.inverse) arthCombine

/-- The values that a scheme gives at one number. -/
def Scheme.values (z : ComplexFloat) (window : Nat) : Scheme → List ComplexFloat
  | .single value => [value z]
  | .logarithm inner outer => ((inner z).lnBranches window).map outer
  | .logarithms left right combine =>
    cross combine ((left z).lnBranches window) ((right z).lnBranches window)
  | .inverseLogarithms left right combine =>
    ((cross combine ((left z).lnBranches window) ((right z).lnBranches window)).filter
      (· != zero)).map inverse
  | .roots degree => z.roots degree

/-- The values of a function at one number. -/
def values (f : Function) (z : ComplexFloat) (window : Nat) : List ComplexFloat :=
  f.scheme.values z window

end Function

namespace Function2

/-- The values of a function at all pairs of two lists of numbers.  A logarithm expands
either list before it pairs them; the degree of a root is the whole part of a real part. -/
def values (f : Function2) (first second : List ComplexFloat) (window : Nat) :
    List ComplexFloat :=
  match f with
  | .log =>
    cross (· / ·) (first.flatMap (·.lnBranches window)) (second.flatMap (·.lnBranches window))
  | .root => first.flatMap fun x => second.flatMap fun d => x.roots (Binary64.toBoundedInt d.re)

end Function2

end Branchwise
