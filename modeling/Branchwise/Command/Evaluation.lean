/-
Evaluating formulas at points, one or a file of them.

A line of a batch is a formula and its points with semicolons between them.  Blank lines
and lines that start with a number sign say nothing, but they count for the numbers of the
lines.  Each line is evaluated as a formula of its own would be; that formulas are shared
through a cache does not show in the values.
-/
import Branchwise.Cache
import Branchwise.Point

namespace Branchwise

/-- Why an evaluation has no values. -/
inductive EvaluationError
  | formula (cause : FormulaError)
  | point (cause : PointError)
deriving DecidableEq

/-- The wording of the cause. -/
def EvaluationError.message : EvaluationError → String
  | formula cause => cause.message
  | point cause => cause.message

/-- The values of a compiled formula at points that are still text. -/
def Multifunction.evaluateTexts (f : Multifunction) (points : List String) (window : Nat) :
    Except EvaluationError (List PointValues) := do
  let points ← (LabeledPoint.parseAll points).mapError .point
  return f.evaluatePoints points window

/-- The values of a formula at points, all of them still text. -/
def Formula.evaluate (formula : String) (points : List String) (window : Nat) :
    Except EvaluationError (List PointValues) := do
  let f ← (Formula.compile formula).mapError .formula
  f.evaluateTexts points window

/-- A line of a batch that asks for something. -/
structure BatchLine where
  /-- The number of the line in the file, from one. -/
  number : Nat
  formula : String
  points : List String
deriving DecidableEq, Repr

namespace BatchLine

/-- What a line asks for, if it is neither blank nor a comment. -/
def ofText? (line : List Char) (number : Nat) : Option BatchLine :=
  let line := Text.trim line
  if line.isEmpty || line.head? = some '#' then none
  else
    let fields := (line.splitOn ';').map Text.trim
    some {
      number
      formula := String.ofList (fields.headD [])
      points := (fields.tail.filter (!·.isEmpty)).map String.ofList }

/-- The lines of a file that ask for something, numbered among all of its lines. -/
def ofContent (content : String) : List BatchLine :=
  ((content.toList.splitOn '\n').zipIdx 1).filterMap fun (line, number) => ofText? line number

/-- The values that a line asks for, and the cache after it. -/
def evaluate (line : BatchLine) (window : Nat) (cache : FormulaCache) :
    Except EvaluationError (List PointValues) × FormulaCache :=
  match cache.getOrCompile line.formula with
  | (.ok shared, cache) => (shared.function.evaluateTexts line.points window, cache)
  | (.error e, cache) => (.error (.formula e), cache)

/-- Each line with its values, and with the cache that it met. -/
structure Result where
  line : BatchLine
  values : Except EvaluationError (List PointValues)
  cacheBefore : FormulaCache

/-- Evaluates lines in order, and gives the cache after the last. -/
def evaluateAll (window : Nat) (cache : FormulaCache) :
    List BatchLine → List Result × FormulaCache
  | [] => ([], cache)
  | line :: rest =>
    let (values, after) := line.evaluate window cache
    let (results, last) := evaluateAll window after rest
    (⟨line, values, cache⟩ :: results, last)

end BatchLine

end Branchwise
