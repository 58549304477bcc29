/-
The search for the expression that covers a window.

`resolve?` is the meaning of the rules: the first shape whose parts all resolve.  Written
like that it may look at one window very often.  `Search.resolve` follows the same rules
and keeps the windows that failed, over all the windows it is asked about, so that no
window fails twice.
-/
import Branchwise.Expr.Shape
import Std.Data.TreeSet.Lemmas

namespace Branchwise

/-- The expression that covers the window: the first shape, over all rules, whose parts all
resolve. -/
def resolve? (tokens : Array Token) (w : Window) : Option Expr :=
  Rule.all.firstM fun rule =>
    (rule.shapes tokens w).firstM (Shape.build fun part => resolve? tokens part.1)
termination_by w.width
decreasing_by exact part.2

/-- Windows from left to right, the narrower first of those that start together. -/
abbrev Window.order : Window → Window → Ordering :=
  compareLex (compareOn Window.start) (compareOn Window.stop)

theorem Window.order_eq_iff {v w : Window} : Window.order v w = .eq ↔ v = w := by
  cases v; cases w
  simp [compareLex, compareOn, Ordering.then_eq_eq]

/-- A search that keeps the windows known to have no expression. -/
abbrev Search :=
  OptionT (StateM (Std.TreeSet Window Window.order))

namespace Search

/-- The expression that covers the window; a window that is empty or that failed before is not
tried. -/
def resolve (tokens : Array Token) (w : Window) : Search Expr := do
  if w.stop ≤ w.start ∨ (← get).contains w then failure
  let found := Rule.all.firstM fun rule =>
    (rule.shapes tokens w).firstM (Shape.build fun part => resolve tokens part.1)
  found <|> do
    modify (·.insert w)
    failure
termination_by w.width
decreasing_by exact part.2

/-- The length of the longest beginning of the tokens, short of all of them, that is an
expression; zero if there is none. -/
def longestBeginning (tokens : Array Token) : Search Nat :=
  ((List.range' 1 (tokens.size - 1)).reverse.firstM fun n => do
    let _ ← resolve tokens ⟨0, n⟩
    return n) <|> pure 0

end Search

end Branchwise
