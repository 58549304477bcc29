/-
The exact value of a binary64 number.

A finite binary64 number is a whole number of some power of two.  Reading that number off
its bits makes questions of exact value (is it whole, what is its whole part) questions
about `Nat` and `Int`, where rounding plays no role.
-/

namespace Branchwise.Binary64

/-- The positive infinity. -/
def infinity : Float := Float.ofBits 0x7FF0000000000000

/-- NaN, of which there is only one. -/
def nan : Float := Float.ofBits 0x7FF8000000000000

/-- Whether the sign bit is set; it is for `-0.0`. -/
def isNegative (x : Float) : Bool :=
  Nat.pow 2 63 ≤ x.toBits.toNat

/-- The number `significand · 2 ^ exponent`. -/
structure Scaled where
  significand : Nat
  exponent : Int
deriving DecidableEq, Repr

/-- The magnitude of a number; nothing for the infinities and for NaN. -/
def magnitude? (x : Float) : Option Scaled :=
  let field : Nat := x.toBits.toNat / Nat.pow 2 52 % Nat.pow 2 11
  let fraction : Nat := x.toBits.toNat % Nat.pow 2 52
  if field = 2047 then none
  else if field = 0 then some ⟨fraction, -1074⟩
  else some ⟨Nat.pow 2 52 + fraction, (field : Int) - 1075⟩

namespace Scaled

/-- The largest whole number that is not above. -/
def floor : Scaled → Nat
  | ⟨m, .ofNat e⟩ => m * Nat.pow 2 e
  | ⟨m, .negSucc e⟩ => m / Nat.pow 2 (e + 1)

/-- Whether the number has no fraction. -/
def isWhole : Scaled → Bool
  | ⟨_, .ofNat _⟩ => true
  | ⟨m, .negSucc e⟩ => m % Nat.pow 2 (e + 1) = 0

end Scaled

/-- Gives `n` the sign of `x`. -/
def withSign (x : Float) (n : Nat) : Int :=
  if isNegative x then -n else n

/-- The integer that the number is; nothing for a number with a fraction. -/
def toInt? (x : Float) : Option Int :=
  (magnitude? x).bind fun s => if s.isWhole then some (withSign x s.floor) else none

/-- The whole part held between the bounds of a signed 64-bit word; zero for NaN. -/
def toBoundedInt (x : Float) : Int :=
  match magnitude? x with
  | some s => max (-Int.pow 2 63) (min (withSign x s.floor) (Int.pow 2 63 - 1))
  | none => if x.isNaN then 0 else if isNegative x then -Int.pow 2 63 else Int.pow 2 63 - 1

end Branchwise.Binary64
