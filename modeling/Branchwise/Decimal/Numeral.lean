/-
Reading decimal text as a binary64 number.

A number is written as an optional sign and then `inf`, `infinity` or `nan` in any case,
or digits with at most one point and an optional exponent.  At least one digit stands
beside the point and in the exponent, and nothing may be left over.  The value is the
binary64 number nearest to the one written, however many digits there are.
-/
import Branchwise.Binary64.Parts

namespace Branchwise.Decimal

/-- The whole number that decimal digits write. -/
def digitsValue (digits : List Char) : Nat :=
  digits.foldl (fun n c => 10 * n + (c.toNat - '0'.toNat)) 0

/-- A sign in front, as a flag for minus, and the text after it. -/
def takeSign : List Char → Bool × List Char
  | '-' :: rest => (true, rest)
  | '+' :: rest => (false, rest)
  | text => (false, text)

/-- An exponent that fills the text; no text is exponent zero. -/
def readExponent? : List Char → Option Int
  | [] => some 0
  | mark :: rest =>
    let (negative, digits) := takeSign rest
    if (mark = 'e' || mark = 'E') && !digits.isEmpty && digits.all Char.isDigit then
      let n : Int := digitsValue digits
      some (if negative then -n else n)
    else none

/-- The number nearest to `digits · 10 ^ exponent`. -/
def scaled (digits : Nat) (exponent : Int) : Float :=
  Float.ofScientific digits (exponent < 0) exponent.natAbs

/-- Reads digits, point and exponent, without a sign. -/
def readDigits? (text : List Char) : Option Float :=
  let whole := text.takeWhile Char.isDigit
  let afterWhole := text.dropWhile Char.isDigit
  let hasPoint := afterWhole.head? = some '.'
  let fraction := if hasPoint then afterWhole.tail.takeWhile Char.isDigit else []
  let rest := if hasPoint then afterWhole.tail.dropWhile Char.isDigit else afterWhole
  if whole.isEmpty && fraction.isEmpty then none
  else (readExponent? rest).map fun e =>
    scaled (digitsValue (whole ++ fraction)) (e - fraction.length)

/-- Reads a number that has no sign. -/
def readUnsigned? (text : List Char) : Option Float :=
  let word := String.ofList (text.map Char.toLower)
  if word = "inf" || word = "infinity" then some Binary64.infinity
  else if word = "nan" then some Binary64.nan
  else readDigits? text

/-- Reads a number that fills the text. -/
def read? (text : List Char) : Option Float :=
  let (negative, unsigned) := takeSign text
  (readUnsigned? unsigned).map fun x => if negative then -x else x

end Branchwise.Decimal
