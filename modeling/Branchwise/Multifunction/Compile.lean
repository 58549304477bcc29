/-
From the tree of a formula to the function it means.

The grammar accepts a token for what kind it is; only here is its spelling looked up.  The
first name that cannot be found, with a node before its children and the left child before
the right, is the error.
-/
import Branchwise.Expr.Basic
import Branchwise.Multifunction.Basic

namespace Branchwise

/-- The formula uses a name that stands for nothing. -/
structure UnsupportedName where
  name : String
deriving DecidableEq, Repr

/-- The value that a name stands for. -/
def lookUp (α : Type) [Named α] (name : String) : Except UnsupportedName α :=
  match Named.ofName? name with
  | some a => .ok a
  | none => .error ⟨name⟩

namespace Multifunction

/-- The function that a single token means. -/
def ofToken (token : Token) : Except UnsupportedName Multifunction :=
  match token.kind with
  | .number x => .ok (constant (.ofReal x))
  | .letter => .ok var
  | .constant => do return constant (← lookUp Constant token.literal).value
  | _ => .error ⟨token.literal⟩

/-- The function that a tree means. -/
def ofExpr : Expr → Except UnsupportedName Multifunction
  | .value token => ofToken token
  | .unary operator operand =>
    if operator.literal = Named.name Operator.sub then do
      return negate (← ofExpr operand)
    else .error ⟨operator.literal⟩
  | .paren _ inner _ => ofExpr inner
  | .binary left operator right => do
    let operator ← lookUp Operator operator.literal
    let left ← ofExpr left
    let right ← ofExpr right
    return binary operator left right
  | .call function _ argument _ => do
    let function ← lookUp Function function.literal
    return call function (← ofExpr argument)
  | .call2 function _ first _ second _ => do
    let function ← lookUp Function2 function.literal
    let first ← ofExpr first
    let second ← ofExpr second
    return call2 function first second

end Multifunction

end Branchwise
