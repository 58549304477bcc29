/-
Writing a binary64 number as decimal text.

The digits are the shortest that read back.  They are written by place and never with an
exponent, however large or small the number; a whole number has no point.
-/
import Branchwise.Decimal.Shortest

namespace Branchwise.Decimal

/-- The decimal digits of a whole number. -/
def digitText (n : Nat) : List Char :=
  Nat.toDigits 10 n

/-- Digits with the point in its place. -/
def Digits.positional (d : Digits) : List Char :=
  let text := digitText d.digits
  let places := (-d.exponent).toNat
  if places = 0 then text ++ List.replicate d.exponent.toNat '0'
  else
    let padded := List.replicate (places + 1 - text.length) '0' ++ text
    padded.take (padded.length - places) ++ '.' :: padded.drop (padded.length - places)

/-- The text of a number without its sign; none is needed for NaN. -/
def writeMagnitude (x : Float) : List Char :=
  match Binary64.magnitude? x with
  | none => if x.isNaN then "NaN".toList else "inf".toList
  | some s => if s.significand = 0 then ['0'] else ((shortest? s).map Digits.positional).getD []

/-- The text of a number.  A negative zero has its sign, NaN has none. -/
def write (x : Float) : List Char :=
  if Binary64.isNegative x && !x.isNaN then '-' :: writeMagnitude x else writeMagnitude x

end Branchwise.Decimal
