/-
Reading a formula as tokens.

Reading goes from left to right over the glyphs of the text.  At each place the longest
keyword counts first, then a letter, then a number; anything else is an unknown
character.  A formula has one variable, the first letter it uses, and another letter is an
error.  The first error ends the reading.

Two values side by side multiply.  That is a second pass over what was read: it writes a
product between two neighbouring values and leaves all else as it is.
-/
import Branchwise.Decimal.Numeral
import Branchwise.Token.Keyword

namespace Branchwise

open Text (Glyph)

/-- Why a text is not a sequence of tokens. -/
inductive LexError
  /-- Nothing starts with this character. -/
  | unknownCharacter (char : Char) (offset : Nat)
  /-- A letter that is not the variable of the formula. -/
  | secondVariable (first : Char) (firstOffset : Nat) (second : Char) (secondOffset : Nat)
  /-- Digits that write no number. -/
  | unreadableNumeral (literal : String) (offset : Nat)
deriving DecidableEq, Repr

namespace Token

/-! ### What stands at a place of the text -/

/-- What stands at a place of the text. -/
inductive Lexeme
  | keyword (word : Keyword)
  | letter
  /-- Digits, or digits with a point between them. -/
  | numeral (width : Nat)
  | unknown
deriving DecidableEq, Repr

/-- How many glyphs a number at the start of the text takes.  A point counts only if a
digit follows it. -/
def numeralWidth (glyphs : List Glyph) : Nat :=
  let whole := (glyphs.takeWhile (·.char.isDigit)).length
  match glyphs.drop whole with
  | [] => whole
  | mark :: rest =>
    let fraction := (rest.takeWhile (·.char.isDigit)).length
    if mark.char = '.' && fraction != 0 then whole + 1 + fraction else whole

/-- The lexeme that starts at `g`. -/
def Lexeme.scan (g : Glyph) (rest : List Glyph) : Lexeme :=
  match Keyword.longest? (g :: rest) with
  | some word => .keyword word
  | none =>
    if g.char.isAlpha then .letter
    else if g.char.isDigit then .numeral (numeralWidth (g :: rest))
    else .unknown

/-- How many glyphs a lexeme takes. -/
def Lexeme.width : Lexeme → Nat
  | .keyword word => word.spelling.length
  | .letter => 1
  | .numeral width => width
  | .unknown => 1

/-! ### One token -/

/-- The variable of a formula, with the offset of its first use. -/
structure Variable where
  letter : Char
  offset : Nat
deriving DecidableEq, Repr

/-- The token that a lexeme at `g` is, and the variable as it is known after it. -/
def ofLexeme (known : Option Variable) (previous : Option Kind) (g : Glyph) (rest : List Glyph) :
    Lexeme → Except LexError (Token × Option Variable)
  | .keyword word => .ok (⟨word.kind previous, word.spelling, g.offset⟩, known)
  | .letter =>
    let token : Token := ⟨.letter, g.char.toString, g.offset⟩
    match known with
    | none => .ok (token, some ⟨g.char, g.offset⟩)
    | some v =>
      if v.letter = g.char then .ok (token, some v)
      else .error (.secondVariable v.letter v.offset g.char g.offset)
  | .numeral width =>
    let run := (g :: rest).take width
    let literal := String.ofList (Glyph.covered run)
    match Decimal.read? (run.map (·.char)) with
    | some x => .ok (⟨.number x, literal, g.offset⟩, known)
    | none => .error (.unreadableNumeral literal g.offset)
  | .unknown => .error (.unknownCharacter g.char g.offset)

/-! ### All tokens -/

/-- One result of reading: a token or the error that ends it, and the variable letter as it
is known by then. -/
structure Step where
  result : Except LexError Token
  variableLetter : Option Char

/-- Reads the tokens that are written in the text.  The first glyph of a lexeme is always
consumed, so the rest gets shorter. -/
def readFrom (known : Option Variable) (previous : Option Kind) : List Glyph → List Step
  | [] => []
  | g :: rest =>
    let lexeme := Lexeme.scan g rest
    match ofLexeme known previous g rest lexeme with
    | .error e => [⟨.error e, known.map (·.letter)⟩]
    | .ok (token, known') =>
      ⟨.ok token, known'.map (·.letter)⟩ ::
        readFrom known' (some token.kind) (rest.drop (lexeme.width - 1))
termination_by glyphs => glyphs.length
decreasing_by simp only [List.length_drop, List.length_cons]; omega

/-- The multiplication that is meant before a value that follows a value. -/
def impliedProduct (offset : Nat) : Token :=
  ⟨.binary, "*", offset⟩

/-- Writes the implied product before each value that follows a value. -/
def withProducts (previous : Option Kind) : List Step → List Step
  | [] => []
  | step :: rest =>
    match step.result with
    | .error _ => step :: withProducts previous rest
    | .ok token =>
      if token.isValue && previous.any (·.isValue) then
        ⟨.ok (impliedProduct token.offset), step.variableLetter⟩ :: step ::
          withProducts (some token.kind) rest
      else step :: withProducts (some token.kind) rest

/-- Everything that reading a formula gives, in order. -/
def steps (formula : String) : List Step :=
  withProducts none (readFrom none none (Glyph.ofText formula.toList))

end Token

/-- The tokens of a formula, or the first error. -/
def tokenize (formula : String) : Except LexError (List Token) :=
  (Token.steps formula).mapM (·.result)

end Branchwise
