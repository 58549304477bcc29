/-
The points at which a formula is evaluated.

A point is written `label=re,im`, or `re,im` for short; then its place in the list is its
label.  The text is cut at the first equals sign and the rest at its first comma, so a
label may hold commas but a number may hold neither.
-/
import Branchwise.Decimal.Numeral
import Branchwise.Multifunction.Basic
import Branchwise.Text.Blank
import Branchwise.Text.Cut

namespace Branchwise

/-- A number to evaluate at, with the label of its values. -/
structure LabeledPoint where
  label : String
  z : ComplexFloat
deriving DecidableEq

/-- The text is no point. -/
structure PointError where
  input : String
deriving DecidableEq, Repr

namespace PointError

/-- The wording of what went wrong. -/
def message (e : PointError) : String :=
  "Invalid point `" ++ e.input ++ "`"

/-- What could be done about it. -/
def help : String :=
  "write a point as `label=re,im` or just `re,im`"

end PointError

namespace LabeledPoint

/-- A label that is written out, or else the place of the point, and the coordinates. -/
def splitLabel? (text : List Char) (place : Nat) : Option (String × List Char) :=
  match Text.cut? '=' text with
  | none => some (toString place, text)
  | some (label, coordinates) =>
    if (Text.trim label).isEmpty then none else some (String.ofList (Text.trim label), coordinates)

/-- Two numbers with a comma between them. -/
def readCoordinates? (text : List Char) : Option ComplexFloat := do
  let (re, im) ← Text.cut? ',' text
  return ⟨← Decimal.read? (Text.trim re), ← Decimal.read? (Text.trim im)⟩

/-- Reads the point at a place of the list.  The error keeps the text as it is. -/
def parse (input : String) (place : Nat) : Except PointError LabeledPoint :=
  let point? := do
    let (label, coordinates) ← splitLabel? input.toList place
    return LabeledPoint.mk label (← readCoordinates? coordinates)
  match point? with
  | some point => .ok point
  | none => .error ⟨input⟩

/-- All points of a list; the first text that is no point is the error. -/
def parseAll (inputs : List String) : Except PointError (List LabeledPoint) :=
  inputs.zipIdx.mapM fun (input, place) => parse input place

end LabeledPoint

/-- The values of a function at a point. -/
structure PointValues where
  label : String
  values : List ComplexFloat
deriving DecidableEq

/-- The values at each point, in the order of the points. -/
def Multifunction.evaluatePoints (f : Multifunction) (points : List LabeledPoint) (window : Nat) :
    List PointValues :=
  points.map fun point => ⟨point.label, f.evaluate point.z window⟩

/-- The line that lists the values. -/
def PointValues.toText (p : PointValues) : String :=
  p.label ++ ": " ++ " ".intercalate (p.values.map ComplexFloat.toText)

end Branchwise
