/-
Parsing: one tree for all the tokens, or the place where they stop making sense.

That place is the end of the longest beginning that is an expression by itself.  The
beginnings are looked for with what the failed search has learnt.
-/
import Branchwise.Expr.Search

namespace Branchwise

/-- The tokens form no expression. -/
structure IncompleteExpression where
  /-- How many tokens the longest beginning that is an expression has. -/
  consumed : Nat
  /-- The first token after that beginning; there is none only if there are no tokens. -/
  unread : Option Token
deriving DecidableEq

/-- The tree of a sequence of tokens. -/
def parse (tokens : List Token) : Except IncompleteExpression Expr :=
  let tokens := tokens.toArray
  match (Search.resolve tokens ⟨0, tokens.size⟩).run ∅ with
  | (some expr, _) => .ok expr
  | (none, failed) =>
    let consumed := ((Search.longestBeginning tokens).run failed).1.getD 0
    .error ⟨consumed, tokens[consumed]?⟩

end Branchwise
