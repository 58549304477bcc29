/-
The shortest decimal that reads back as a given binary64 number.

Reading rounds to nearest, so the reals that read as a number form an interval around it,
ends included exactly when its significand is even.  The grids of multiples of a power of
ten are tried from coarse to fine.  A grid that meets the interval meets it in one of the
two neighbours of the number, so those two are all that has to be tested.
-/
import Branchwise.Binary64.Parts

namespace Branchwise.Decimal

/-- The number `digits · 10 ^ exponent`. -/
structure Digits where
  digits : Nat
  exponent : Int
deriving DecidableEq, Repr

/-- The reals that read back as a number: the number and its distances to the two ends, as
multiples of `2 ^ exponent`. -/
structure Interval where
  center : Nat
  below : Nat
  above : Nat
  exponent : Int
  closed : Bool

/-- The lower neighbour of a power of two is half as far away as the upper one. -/
def Interval.around (s : Binary64.Scaled) : Interval where
  center := 4 * s.significand
  below := if s.significand = Nat.pow 2 52 && -1074 < s.exponent then 1 else 2
  above := 2
  exponent := s.exponent - 2
  closed := s.significand % 2 = 0

/-- The neighbour of the number on the grid of multiples of `10 ^ k` that lies in the
interval, if one does; of two the nearer, and the upper one of an exact tie. -/
def Interval.onGrid? (i : Interval) (k : Int) : Option Digits :=
  -- both the grid and the interval in whole multiples of one small unit
  let unit := Nat.pow 2 i.exponent.toNat * Nat.pow 10 (-k).toNat
  let step := Nat.pow 10 k.toNat * Nat.pow 2 (-i.exponent).toNat
  let value := i.center * unit
  let lower := value / step
  let meets (gap bound : Nat) : Bool := if i.closed then gap ≤ bound else gap < bound
  let down := value - lower * step
  let up := (lower + 1) * step - value
  match meets down (i.below * unit), meets up (i.above * unit) with
  | true, true => some ⟨if down < up then lower else lower + 1, k⟩
  | true, false => some ⟨lower, k⟩
  | false, true => some ⟨lower + 1, k⟩
  | false, false => none

/-- A power of ten above the number: `0.30103` is just above the logarithm of two. -/
def topExponent (s : Binary64.Scaled) : Int :=
  (s.exponent + s.significand.log2 + 1) * 30103 / 100000 + 1

/-- The shortest digits of a number that is not zero.  Seventeen always suffice, so the
twenty grids below the top are enough. -/
def shortest? (s : Binary64.Scaled) : Option Digits :=
  (List.range 20).findSome? fun (n : Nat) => (Interval.around s).onGrid? (topExponent s - n)

end Branchwise.Decimal
