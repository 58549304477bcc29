/-
A formula as a tree.

Every node keeps the tokens it was made from, also the ones that carry no meaning, so
`Expr.tokens` gives back the sequence that was read.  The text of a tree names each node
by its operator or function and puts its parts behind it.
-/
import Branchwise.Token.Basic

namespace Branchwise

/-- The tree of a formula. -/
inductive Expr
  | value (token : Token)
  | call (function opening : Token) (argument : Expr) (closing : Token)
  | call2 (function opening : Token) (first : Expr) (separator : Token) (second : Expr)
      (closing : Token)
  | unary (operator : Token) (operand : Expr)
  | paren (opening : Token) (inner : Expr) (closing : Token)
  | binary (left : Expr) (operator : Token) (right : Expr)
deriving DecidableEq

namespace Expr

/-- The tokens of the tree from left to right. -/
def tokens : Expr → List Token
  | value token => [token]
  | call function opening argument closing =>
    function :: opening :: argument.tokens ++ [closing]
  | call2 function opening first separator second closing =>
    function :: opening :: first.tokens ++ separator :: second.tokens ++ [closing]
  | unary operator operand => operator :: operand.tokens
  | paren opening inner closing => opening :: inner.tokens ++ [closing]
  | binary left operator right => left.tokens ++ operator :: right.tokens

theorem tokens_ne_nil (e : Expr) : e.tokens ≠ [] := by
  cases e <;> simp [tokens]

/-- The tree as nested lists, each led by what is applied. -/
def toText : Expr → String
  | value token => token.literal
  | call function _ argument _ => "(" ++ function.literal ++ " " ++ argument.toText ++ ")"
  | call2 function _ first _ second _ =>
    "(" ++ function.literal ++ " " ++ first.toText ++ " " ++ second.toText ++ ")"
  | unary operator operand => "(" ++ operator.literal ++ " " ++ operand.toText ++ ")"
  | paren _ inner _ => "(group " ++ inner.toText ++ ")"
  | binary left operator right =>
    "(" ++ operator.literal ++ " " ++ left.toText ++ " " ++ right.toText ++ ")"

/-- What the node at the top of the tree is. -/
def rootName : Expr → String
  | value .. => "value"
  | call .. => "call"
  | call2 .. => "call2"
  | unary .. => "unary"
  | paren .. => "paren"
  | binary .. => "binary"

end Expr

end Branchwise
