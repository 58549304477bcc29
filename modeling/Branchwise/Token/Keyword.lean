/-
The fixed words of the language.

A keyword is a name from the vocabulary or a mark of punctuation.  Where several keywords
match, the longest is meant: `im` before `i`, `csch` before `cos`, `<=` before `<`.
-/
import Branchwise.Text.Glyph
import Branchwise.Token.Basic
import Branchwise.Vocabulary

namespace Branchwise

/-- A name from the vocabulary or a mark of punctuation. -/
inductive Keyword
  | constant (name : Constant)
  | function (name : Function)
  | function2 (name : Function2)
  | operator (name : Operator)
  | comparator (name : Comparator)
  | separator | leftParen | rightParen
deriving DecidableEq, Repr

namespace Keyword

/-- The keyword as it is written. -/
def spelling : Keyword → String
  | .constant name => Named.name name
  | .function name => Named.name name
  | .function2 name => Named.name name
  | .operator name => Named.name name
  | .comparator name => Named.name name
  | .separator => ","
  | .leftParen => "("
  | .rightParen => ")"

/-- Every keyword. -/
def all : List Keyword :=
  (Named.all.map .constant) ++ (Named.all.map .function) ++ (Named.all.map .function2) ++
    (Named.all.map .operator) ++ (Named.all.map .comparator) ++ [.separator, .leftParen, .rightParen]

theorem mem_all (word : Keyword) : word ∈ all := by
  cases word <;> simp [all, Named.mem_all]

/-- The longest keyword that the glyphs start with. -/
def longest? (glyphs : List Text.Glyph) : Option Keyword :=
  (all.filter fun word => Text.Glyph.spells word.spelling.toList glyphs).maxOn? fun word =>
    word.spelling.length

/-- The kind of a keyword after a token of another kind.  A minus subtracts from a value or
a closed group and negates anywhere else. -/
def kind (previous : Option Token.Kind) : Keyword → Token.Kind
  | .constant _ => .constant
  | .function _ => .function1
  | .function2 _ => .function2
  | .operator .sub =>
    if previous.any fun k => k.isValue || k = .rightParen then .binary else .unary
  | .operator _ => .binary
  | .comparator _ => .comparator
  | .separator => .separator
  | .leftParen => .leftParen
  | .rightParen => .rightParen

end Keyword

end Branchwise
