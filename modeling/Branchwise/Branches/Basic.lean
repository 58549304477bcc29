/-
Where values multiply: the branches of a logarithm and the roots of a number.

A logarithm is expanded over the branches `-w … w` of a window `w`, a root over all of its
branches.  Where two lists of values meet, each value of the first is paired with each
value of the second.
-/
import Branchwise.ComplexFloat.Power

namespace Branchwise

/-- The branches `-6 … 6`, unless the caller asks otherwise. -/
def defaultWindow : Nat := 6

/-- Roots of a higher degree are not listed, for there would be too many. -/
def maxRootDegree : Nat := 1 <<< 20

/-- The branch indices of a window, in ascending order. -/
def branchIndices (window : Nat) : List Int :=
  (List.range (2 * window + 1)).map fun (n : Nat) => (n : Int) - window

namespace ComplexFloat

/-- The logarithm on branch `k`, from the one on the principal branch. -/
def onBranch (principal : ComplexFloat) (k : Int) : ComplexFloat :=
  principal + ⟨0, 2 * pi * Float.ofInt k⟩

/-- The logarithms on all branches of the window. -/
def lnBranches (z : ComplexFloat) (window : Nat) : List ComplexFloat :=
  (branchIndices window).map z.ln.onBranch

/-- Root number `k` of a number with argument `theta`, where all roots have absolute value
`modulus`. -/
def rootOnBranch (modulus theta degree : Float) (k : Nat) : ComplexFloat :=
  ofPolar modulus ((theta + 2 * pi * Float.ofNat k) / degree)

/-- All roots of the given degree.  Those of a negative degree are the roots of the
inverse; degree zero has none, and neither has one beyond the limit. -/
def roots (z : ComplexFloat) (degree : Int) : List ComplexFloat :=
  if degree = 0 ∨ maxRootDegree < degree.natAbs then []
  else
    let d := Float.ofInt degree
    (List.range degree.natAbs).map (rootOnBranch (z.norm.pow (1 / d)) z.arg d)

end ComplexFloat

/-- Combines each value of the first list with each of the second. -/
def cross {α β γ : Type} (combine : α → β → γ) (first : List α) (second : List β) : List γ :=
  first.flatMap fun a => second.map (combine a)

end Branchwise
