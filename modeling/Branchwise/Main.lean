/-
The command line.

It reads the file of a batch, prints what the answer says, and exits with its code.
-/
import Branchwise.Command.Run

namespace Branchwise

/-- The text of a file, or the reason why it cannot be read. -/
def readFile (file : String) : IO (Except String String) := do
  try
    return .ok (← IO.FS.readFile file)
  catch
    | .noFileOrDirectory .. => return .error "No such file or directory (os error 2)"
    | e => return .error (toString e)

/-- Prints a report as an error, each cause on a line of its own. -/
def Report.print (report : Report) : IO Unit := do
  IO.eprintln report.message
  for cause in report.causes do
    IO.eprintln ("  caused by: " ++ cause)

end Branchwise

open Branchwise in
/-- Carries out what the arguments ask for, or says how the program is used. -/
def main (arguments : List String) : IO UInt32 := do
  match Invocation.ofArguments? arguments with
  | none =>
    IO.eprintln "usage: (tokenize | parse) FORMULA | eval FORMULA [-p POINT]... [-w N] | batch FILE [-w N]"
    return UInt32.ofNat usageCode
  | some invocation =>
    let content ← match invocation.command.file? with
      | some file => readFile file
      | none => pure (.ok "")
    let outcome := invocation.run content
    for line in outcome.notes do
      IO.eprintln line
    for line in outcome.printed do
      IO.println line
    for report in outcome.reports do
      report.print
    return UInt32.ofNat outcome.code
