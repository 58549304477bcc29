/-
The notes that a command makes on its way, for those who ask for them.

A note is made where a formula is parsed, where it is compiled, and where the cache has to
compile it.  Each note can be told from the results alone, so the results are computed
without it.
-/
import Branchwise.Cache

namespace Branchwise

/-- A note of one part of the program, under the name of the program. -/
def note (part : String) (text : String) : String :=
  "[DEBUG] complex_solver" ++ part ++ ": " ++ text

namespace Formula

/-- What parsing a formula has to tell.  A text that is no sequence of tokens is not
parsed. -/
def parseNotes (formula : String) : List String :=
  match tokenize formula with
  | .error _ => []
  | .ok tokens =>
    match Branchwise.parse tokens with
    | .ok expr => [note "::parse" ("parsed `" ++ formula ++ "` as " ++ expr.toText)]
    | .error cause =>
      [note "::parse" ("`" ++ formula ++ "` resolves only through its first " ++
        toString cause.consumed ++ " of " ++ toString tokens.length ++ " tokens")]

/-- What compiling a formula has to tell. -/
def compileNotes (formula : String) : List String :=
  parseNotes formula ++
    match parse formula, compile formula with
    | .ok expr, .ok _ => [note "::eval" ("compiled " ++ expr.toText)]
    | _, _ => []

end Formula

/-- What looking up a formula in the cache has to tell. -/
def FormulaCache.notes (cache : FormulaCache) (formula : String) : List String :=
  if cache.contains formula then []
  else note "::cache" ("compiling `" ++ formula ++ "`") :: Formula.compileNotes formula

end Branchwise
