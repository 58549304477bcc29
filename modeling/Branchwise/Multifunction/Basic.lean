/-
A formula resolved to operations, and the list of its values at a point.

The tree has only what the values depend on: parentheses, spellings and places are gone.
Its values are listed in a fixed order: an operation of two operands runs through the
values of the second for each value of the first.
-/
import Branchwise.Branches.Function

namespace Branchwise

/-- A function of one complex variable that may have many values. -/
inductive Multifunction
  | constant (value : ComplexFloat)
  | var
  | negate (operand : Multifunction)
  | binary (operator : Operator) (left right : Multifunction)
  | call (function : Function) (argument : Multifunction)
  | call2 (function : Function2) (first second : Multifunction)
deriving DecidableEq

/-- The result of an operation on two numbers. -/
def Operator.apply : Operator → ComplexFloat → ComplexFloat → ComplexFloat
  | .add, z, w => z + w
  | .sub, z, w => z - w
  | .mul, z, w => z * w
  | .div, z, w => z / w
  | .pow, z, w => z.pow w

/-- The number that a constant names. -/
def Constant.value : Constant → ComplexFloat
  | .i => ComplexFloat.i
  | .pi => .ofReal Branchwise.pi
  | .e => .ofReal euler

namespace Multifunction

/-- Equality of trees, with constants compared as numbers. -/
def equal : Multifunction → Multifunction → Bool
  | constant z, constant w => z == w
  | var, var => true
  | negate f, negate g => f.equal g
  | binary operator f₁ f₂, binary operator' g₁ g₂ =>
    operator = operator' && f₁.equal g₁ && f₂.equal g₂
  | call function f, call function' g => function = function' && f.equal g
  | call2 function f₁ f₂, call2 function' g₁ g₂ =>
    function = function' && f₁.equal g₁ && f₂.equal g₂
  | _, _ => false

/-- Two functions count as equal if their trees do. -/
instance : BEq Multifunction where
  beq := equal

/-- Every value of the function at `z`, with logarithms expanded over the window. -/
def evaluate (z : ComplexFloat) (window : Nat) : Multifunction → List ComplexFloat
  | constant value => [value]
  | var => [z]
  | negate operand => (operand.evaluate z window).map (-·)
  | binary operator left right =>
    cross operator.apply (left.evaluate z window) (right.evaluate z window)
  | call function argument =>
    (argument.evaluate z window).flatMap fun w => function.values w window
  | call2 function first second =>
    function.values (first.evaluate z window) (second.evaluate z window) window

end Multifunction

end Branchwise
