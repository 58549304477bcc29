/-
The binary64 number nearest to an exact value.

`nearest` rounds `m · 2 ^ q` once, a half going to the even neighbour.  `hypot` is the
rounded length of a vector: its square is exact on a common power of two, so only the
square root is cut short, and a last odd bit records whether it was.
-/
import Branchwise.Binary64.Parts

namespace Branchwise.Binary64

/-- `n / 2 ^ k` to the nearest integer, a half going to the even one. -/
def shiftRounded (n k : Nat) : Nat :=
  let unit := Nat.pow 2 k
  let whole := n / unit
  let left := 2 * (n % unit)
  if left < unit || (left = unit && whole % 2 = 0) then whole else whole + 1

/-- The number nearest to `m · 2 ^ q`.  The unit of its last place is at least that of the
subnormal numbers; a carry out of the significand lands in the exponent by itself. -/
def nearest (m : Nat) (q : Int) : Float :=
  let unit := max (q + m.log2 - 52) (-1074)
  let significand :=
    if unit ≤ q then m * Nat.pow 2 (q - unit).toNat else shiftRounded m (unit - q).toNat
  let bits := (unit + 1074).toNat * Nat.pow 2 52 + significand
  if 0x7FF0000000000000 ≤ bits then infinity else Float.ofBits (UInt64.ofNat bits)

/-- The square root of `n` cut to an integer, from an estimate that is not below it. -/
def sqrtFrom (n estimate : Nat) : Nat :=
  let better := (estimate + n / estimate) / 2
  if better < estimate then sqrtFrom n better else estimate
termination_by estimate

/-- The square root of `n` cut to an integer, from a power of two above it. -/
def sqrtFloor (n : Nat) : Nat :=
  sqrtFrom n (Nat.pow 2 (n.log2 / 2 + 1))

/-- The number nearest to the length of `(x, y)`.  It is infinite if a component is, also
beside NaN.  A program commonly calls the `hypot` of its platform, whose precision is
unspecified, so the last place there may differ from the one here. -/
def hypot (x y : Float) : Float :=
  match magnitude? x, magnitude? y with
  | some a, some b =>
    let q := min a.exponent b.exponent
    let m := a.significand * Nat.pow 2 (a.exponent - q).toNat
    let n := b.significand * Nat.pow 2 (b.exponent - q).toNat
    let square := (m * m + n * n) * Nat.pow 4 64
    let root := sqrtFloor square
    nearest (2 * root + if root * root = square then 0 else 1) (q - 65)
  | _, _ => if x.isInf || y.isInf then infinity else nan

end Branchwise.Binary64
