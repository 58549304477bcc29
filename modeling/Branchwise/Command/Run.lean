/-
What each command answers.

An answer is what is printed, what is reported as an error, and the exit code.  Reading
the file of a batch is left to the caller, so all of this is a function of the arguments
and of what the file holds.
-/
import Branchwise.Command.Arguments
import Branchwise.Command.Evaluation
import Branchwise.Command.Notes

namespace Branchwise

/-- An error as it is reported: what failed, then why. -/
structure Report where
  message : String
  causes : List String
deriving DecidableEq, Repr

/-- The answer to a command: the exit code, what is printed, the notes on the way to it, and what is
reported as errors. -/
structure Outcome where
  code : Nat
  printed : List String
  notes : List String
  reports : List Report
deriving DecidableEq, Repr

/-! ### Exit codes -/

/-- The code for a failure, by who has to act on it. -/
def FailureKind.exitCode : Option FailureKind → Nat
  | some .badFormula => 65
  | some .unsupported => 70
  | none => 1

/-- The code for a formula that has no function. -/
def FormulaError.exitCode (e : FormulaError) : Nat :=
  FailureKind.exitCode e.kind

/-- The code for an evaluation that has no values.  A point that cannot be read is a failure of no
kind. -/
def EvaluationError.exitCode : EvaluationError → Nat
  | formula cause => cause.exitCode
  | point _ => FailureKind.exitCode none

/-- The code for arguments that ask for nothing the program can do. -/
def usageCode : Nat := 2

namespace Outcome

/-- The answer to wrong usage.  How the program is used is for the caller to say. -/
def wrongUsage : Outcome :=
  ⟨usageCode, [], [], []⟩

/-- A failure that is the only thing reported. -/
def failed (code : Nat) (printed : List String) (report : Report) : Outcome :=
  ⟨code, printed, [], [report]⟩

/-- The lines of a list of values, each behind the same text. -/
def valueLines (lead : String) (results : List PointValues) : List String :=
  results.map fun p => lead ++ p.toText

/-! ### The commands -/

/-- Tokens are printed as they are read, also those before an error. -/
def tokenize (formula : String) : Outcome :=
  let printed := (Token.steps formula).filterMap fun step => step.result.toOption.map Token.toText
  match Branchwise.tokenize formula with
  | .ok _ => ⟨0, printed ++ ["EOF  null"], [], []⟩
  | .error e =>
    let e := FormulaError.lex e
    failed e.exitCode printed ⟨e.message, []⟩

/-- The tree of the formula is printed. -/
def parse (formula : String) : Outcome :=
  match Formula.parse formula with
  | .ok expr => ⟨0, [expr.toText], [], []⟩
  | .error e => failed e.exitCode [] ⟨e.message, []⟩

/-- Each point has a line of values.  One bad point is enough for nothing to be printed. -/
def eval (formula : String) (points : List String) (window : Nat) : Outcome :=
  match Formula.evaluate formula points window with
  | .ok results => ⟨0, valueLines "" results, [], []⟩
  | .error e => failed e.exitCode [] ⟨e.message, []⟩

/-- What one line of a batch prints; a line that fails prints nothing. -/
def batchPrinted (result : BatchLine.Result) : List String :=
  match result.values with
  | .ok results => valueLines (result.line.formula ++ " | ") results
  | .error _ => []

/-- The report on a line of a batch that failed. -/
def batchReport? (result : BatchLine.Result) : Option Report :=
  match result.values with
  | .ok _ => none
  | .error e => some ⟨"line " ++ toString result.line.number, [e.message]⟩

/-- A batch goes on after a line that fails, and fails at its end if any did. -/
def batch (file : String) (content : String) (window : Nat) : Outcome :=
  let (results, _) := BatchLine.evaluateAll window .empty (BatchLine.ofContent content)
  let printed := results.flatMap batchPrinted
  let reports := results.filterMap batchReport?
  if reports.isEmpty then ⟨0, printed, [], []⟩
  else
    let summary := toString reports.length ++ " line(s) of `" ++ file ++ "` failed"
    ⟨FailureKind.exitCode none, printed, [], reports ++ [⟨summary, []⟩]⟩

/-- A batch whose file cannot be read. -/
def unreadable (file reason : String) : Outcome :=
  failed (FailureKind.exitCode none) [] ⟨"reading `" ++ file ++ "` failed", [reason]⟩

end Outcome

/-! ### Notes -/

/-- What a batch has to tell. -/
def batchNotes (content : String) (window : Nat) : List String :=
  let (results, last) := BatchLine.evaluateAll window .empty (BatchLine.ofContent content)
  results.flatMap (fun result => result.cacheBefore.notes result.line.formula) ++
    [note "" (toString last.size ++ " distinct formulas compiled")]

namespace Command

/-- The file that a command reads. -/
def file? : Command → Option String
  | batch file _ => some file
  | _ => none

/-- The answer to a command, with the text of its file or the reason why there is none. -/
def answer (content : Except String String) : Command → Outcome
  | tokenize formula => .tokenize formula
  | parse formula => .parse formula
  | eval formula points window => .eval formula points window
  | batch file window =>
    match content with
    | .ok text => .batch file text window
    | .error reason => .unreadable file reason

/-- The notes on a command. -/
def notes (content : Except String String) : Command → List String
  | tokenize _ => []
  | parse formula => Formula.parseNotes formula
  | eval formula _ _ => Formula.compileNotes formula
  | batch _ window =>
    match content with
    | .ok text => batchNotes text window
    | .error _ => []

end Command

/-- Carries out what the arguments ask for. -/
def Invocation.run (invocation : Invocation) (content : Except String String) : Outcome :=
  let outcome := invocation.command.answer content
  if invocation.verbose then { outcome with notes := invocation.command.notes content }
  else outcome

end Branchwise
