/-
From the text of a formula to its function, and what is said when that fails.

Three things can go wrong: the text is no sequence of tokens, the tokens form no
expression, or a name means nothing.  Each error keeps its cause.  Its wording, and the
stretches of the formula it points at, are worked out from the cause alone.
-/
import Branchwise.Expr.Parse
import Branchwise.Multifunction.Compile
import Branchwise.Token.Lexer

namespace Branchwise

/-- Why a formula has no function. -/
inductive FormulaError
  | lex (cause : LexError)
  | incomplete (cause : IncompleteExpression)
  | unsupported (cause : UnsupportedName)
deriving DecidableEq

/-- Who has to act on a failure. -/
inductive FailureKind
  /-- The text of the formula is wrong. -/
  | badFormula
  /-- The formula can be parsed but not evaluated. -/
  | unsupported
deriving DecidableEq, Repr

namespace Formula

/-- The tree of a formula. -/
def parse (formula : String) : Except FormulaError Expr := do
  let tokens ← (tokenize formula).mapError .lex
  (Branchwise.parse tokens).mapError .incomplete

/-- The function of a formula. -/
def compile (formula : String) : Except FormulaError Multifunction := do
  let expr ← parse formula
  (Multifunction.ofExpr expr).mapError .unsupported

end Formula

/-! ### What is said about a failure -/

/-- A remark on a stretch of the formula. -/
structure Label where
  span : Span
  text : String
deriving DecidableEq, Repr

/-- The bytes of one character. -/
def Span.ofChar (c : Char) (offset : Nat) : Span :=
  ⟨offset, c.utf8Size⟩

namespace FormulaError

/-- The kind of a failure; a numeral that cannot be read has none. -/
def kind : FormulaError → Option FailureKind
  | lex (.unreadableNumeral ..) => none
  | lex _ => some .badFormula
  | incomplete _ => some .badFormula
  | unsupported _ => some .unsupported

/-- The wording of what went wrong. -/
def message : FormulaError → String
  | lex (.unknownCharacter c _) => "Unknown token '" ++ c.toString ++ "'"
  | lex (.secondVariable first _ second _) =>
    "Too many variables: '" ++ first.toString ++ "' and '" ++ second.toString ++ "'"
  | lex (.unreadableNumeral ..) => "invalid float literal"
  | incomplete _ => "Invalid expression"
  | unsupported cause => "'" ++ cause.name ++ "' is not supported"

/-- What could be done about it. -/
def help : FormulaError → Option String
  | lex (.unknownCharacter c _) => some ("remove or correct the character: `" ++ c.toString ++ "`")
  | lex (.secondVariable first _ second _) =>
    some ("a formula has a single variable, write `" ++ first.toString ++ "` instead of `" ++
      second.toString ++ "`")
  | lex (.unreadableNumeral ..) => none
  | incomplete _ =>
    some "the formula only makes sense up to this point, check operators and parentheses"
  | unsupported _ => some "the formula was accepted by the parser but cannot be evaluated"

/-- The stretches of the formula that the error is about.  An empty formula is pointed at
where it ends. -/
def labels (formula : String) : FormulaError → List Label
  | lex (.unknownCharacter c offset) => [⟨Span.ofChar c offset, "this character"⟩]
  | lex (.secondVariable first firstOffset second secondOffset) =>
    [⟨Span.ofChar first firstOffset, "first variable"⟩,
      ⟨Span.ofChar second secondOffset, "second variable"⟩]
  | lex (.unreadableNumeral literal offset) =>
    [⟨⟨offset, literal.utf8ByteSize⟩, "this numeric literal"⟩]
  | incomplete cause =>
    [⟨(cause.unread.map Token.span).getD ⟨formula.utf8ByteSize, 0⟩, "cannot continue from here"⟩]
  | unsupported _ => []

end FormulaError

end Branchwise
