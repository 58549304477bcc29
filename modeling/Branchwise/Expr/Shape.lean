/-
The ways in which a window of the tokens may form an expression.

A window is a stretch of consecutive tokens.  A shape of a window says which node could
cover it: which tokens are its own and which smaller windows are left to be resolved.  Each
rule of the grammar lists its shapes in the order in which they are tried.  Nothing here
recurses; that the smaller windows form expressions is for the search to find out.

The binding of operators is in one list, `splits`: the loosest operator is tried first,
the rightmost one of a level, and for powers, which group to the right, the leftmost.
-/
import Branchwise.Expr.Basic
import Branchwise.Vocabulary

namespace Branchwise

/-- The tokens from `start` up to, and without, `stop`. -/
structure Window where
  start : Nat
  stop : Nat
deriving DecidableEq, Repr

namespace Window

/-- The number of tokens in the window. -/
def width (w : Window) : Nat :=
  w.stop - w.start

/-- A window narrower than `w`. -/
abbrev Part (w : Window) :=
  { v : Window // v.width < w.width }

/-- The window between two places, if it is narrower than `w`. -/
def part? (w : Window) (start stop : Nat) : Option w.Part :=
  if h : (Window.mk start stop).width < w.width then some ⟨⟨start, stop⟩, h⟩ else none

end Window

/-- A node over a window, with the windows of its children in place of the children. -/
inductive Shape (w : Window)
  | value (token : Token)
  | call (function opening : Token) (argument : w.Part) (closing : Token)
  | call2 (function opening : Token) (first : w.Part) (separator : Token) (second : w.Part)
      (closing : Token)
  | unary (operator : Token) (operand : w.Part)
  | paren (opening : Token) (inner : w.Part) (closing : Token)
  | binary (left : w.Part) (operator : Token) (right : w.Part)

/-- The node, once its children are resolved from left to right. -/
def Shape.build {w : Window} {m : Type → Type} [Monad m] (resolve : w.Part → m Expr) :
    Shape w → m Expr
  | .value token => pure (.value token)
  | .call function opening argument closing => do
    return .call function opening (← resolve argument) closing
  | .call2 function opening first separator second closing => do
    let left ← resolve first
    let right ← resolve second
    return .call2 function opening left separator right closing
  | .unary operator operand => do
    return .unary operator (← resolve operand)
  | .paren opening inner closing => do
    return .paren opening (← resolve inner) closing
  | .binary left operator right => do
    let first ← resolve left
    let second ← resolve right
    return .binary first operator second

/-! ### How tightly operators bind -/

/-- The levels of binding, the loosest first. -/
inductive Operator.Binding
  | sum | product | power
deriving DecidableEq, Repr

/-- How tightly an operator binds. -/
def Operator.binding : Operator → Operator.Binding
  | .add | .sub => .sum
  | .mul | .div => .product
  | .pow => .power

/-- The operator that a token writes between two operands. -/
def Token.operator? (t : Token) : Option Operator :=
  if t.kind = .binary then Named.ofName? t.literal else none

section

variable (tokens : Array Token) (w : Window)

/-- The operators that leave a token on either side, with their places. -/
def operators : List (Nat × Operator) :=
  (List.range' (w.start + 1) (w.width - 2)).filterMap fun i =>
    (tokens[i]? >>= Token.operator?).map fun operator => (i, operator)

/-- The places of the operators of one binding. -/
def placesOf (operators : List (Nat × Operator)) (binding : Operator.Binding) : List Nat :=
  (operators.filter fun entry => entry.2.binding = binding).map (·.1)

/-- The places to split the window at, the outermost operator first. -/
def splits : List Nat :=
  let operators := operators tokens w
  (placesOf operators .sum).reverse ++ (placesOf operators .product).reverse ++
    placesOf operators .power

/-! ### The shapes of each rule -/

/-- A value, which is a window of one token. -/
def valueShape? : Option (Shape w) := do
  guard (w.width = 1)
  let token ← tokens[w.start]?
  guard token.isValue
  return .value token

/-- The first two tokens and the last of a window that reads as a call. -/
def callFrame? : Option (Token × Token × Token) := do
  guard (4 ≤ w.width)
  let function ← tokens[w.start]?
  let opening ← tokens[w.start + 1]?
  let closing ← tokens[w.stop - 1]?
  guard (opening.kind = .leftParen ∧ closing.kind = .rightParen)
  return (function, opening, closing)

/-- The call of one argument, which is all that stands between the brackets. -/
def callShape? : Option (Shape w) := do
  let (function, opening, closing) ← callFrame? tokens w
  guard (function.kind = .function1)
  let argument ← w.part? (w.start + 2) (w.stop - 1)
  return .call function opening argument closing

/-- The call of two arguments that are separated at `i`. -/
def call2Shape? (i : Nat) : Option (Shape w) := do
  let (function, opening, closing) ← callFrame? tokens w
  guard (function.kind = .function2)
  let separator ← tokens[i]?
  guard (separator.kind = .separator)
  let first ← w.part? (w.start + 2) i
  let second ← w.part? (i + 1) (w.stop - 1)
  return .call2 function opening first separator second closing

/-- The minus at the start, with the rest of the window as its operand. -/
def unaryShape? : Option (Shape w) := do
  guard (1 ≤ w.width)
  let operator ← tokens[w.start]?
  guard (operator.kind = .unary)
  let operand ← w.part? (w.start + 1) w.stop
  return .unary operator operand

/-- The brackets at both ends, with what stands between them. -/
def parenShape? : Option (Shape w) := do
  guard (3 ≤ w.width)
  let opening ← tokens[w.start]?
  let closing ← tokens[w.stop - 1]?
  guard (opening.kind = .leftParen ∧ closing.kind = .rightParen)
  let inner ← w.part? (w.start + 1) (w.stop - 1)
  return .paren opening inner closing

/-- The operation whose operator stands at `i`. -/
def binaryShape? (i : Nat) : Option (Shape w) := do
  let operator ← tokens[i]?
  let left ← w.part? w.start i
  let right ← w.part? (i + 1) w.stop
  return .binary left operator right

end

/-- The rules of the grammar. -/
inductive Rule
  | value | call | unary | paren | binary
deriving DecidableEq, Repr

namespace Rule

/-- The rules in the order in which they are tried. -/
def all : List Rule :=
  [.value, .call, .unary, .paren, .binary]

/-- What a rule makes of a window, in the order in which it is tried. -/
def shapes (tokens : Array Token) (w : Window) : Rule → List (Shape w)
  | .value => (valueShape? tokens w).toList
  | .call =>
    (callShape? tokens w).toList ++
      (List.range' (w.start + 2) (w.width - 3)).filterMap (call2Shape? tokens w)
  | .unary => (unaryShape? tokens w).toList
  | .paren => (parenShape? tokens w).toList
  | .binary => (splits tokens w).filterMap (binaryShape? tokens w)

end Rule

end Branchwise
