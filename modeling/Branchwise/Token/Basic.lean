/-
The words of a formula.

A token says what kind of word it is, how it is spelled, and where it starts.  The kind
alone decides which rules of the grammar can use it; only a number carries more, its
value.
-/
import Branchwise.Decimal.Positional

namespace Branchwise

/-- What a token is to the grammar.  A letter stands for the variable. -/
inductive Token.Kind
  | unary | binary
  | separator | comparator
  | leftParen | rightParen
  | function1 | function2
  | letter
  | number (value : Float)
  | constant
deriving DecidableEq

/-- A word of a formula. -/
structure Token where
  kind : Token.Kind
  literal : String
  /-- The byte of the formula at which the token starts. -/
  offset : Nat
deriving DecidableEq

/-- A stretch of the UTF-8 text of a formula, in bytes. -/
structure Span where
  offset : Nat
  length : Nat
deriving DecidableEq, Repr

namespace Token

/-- Values are the tokens that are expressions by themselves. -/
def Kind.isValue : Kind → Bool
  | .letter | .number _ | .constant => true
  | _ => false

/-- The name under which a kind is listed, in lower case. -/
def Kind.name : Kind → String
  | .unary => "unary"
  | .binary => "binary"
  | .separator => "separator"
  | .comparator => "comparator"
  | .leftParen => "left_paren"
  | .rightParen => "right_paren"
  | .function1 => "function1"
  | .function2 => "function2"
  | .letter => "variable"
  | .number _ => "number"
  | .constant => "constant"

/-- Whether the token is an expression by itself. -/
def isValue (t : Token) : Bool :=
  t.kind.isValue

/-- The bytes that the literal would fill.  The text under it may be longer, for a literal
leaves out the blanks inside a name. -/
def span (t : Token) : Span :=
  ⟨t.offset, t.literal.utf8ByteSize⟩

/-- Numbers are shown with at least one decimal place. -/
def numberText (x : Float) : String :=
  let text := String.ofList (Decimal.write x)
  if (Binary64.toInt? x).isSome || x.isInf then text ++ ".0" else text

/-- The line that lists a token: its kind, its spelling and its value, if it has one. -/
def toText (t : Token) : String :=
  let value := match t.kind with
    | .number x => numberText x
    | _ => "null"
  t.kind.name.toUpper ++ " " ++ t.literal ++ " " ++ value

end Token

end Branchwise
