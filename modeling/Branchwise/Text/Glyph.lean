/-
A text as the reader of formulas sees it: its characters that are not blank.

Blanks may stand anywhere in a formula, also inside a name or a number, so reading goes
by characters that are not blank.  Errors and tokens still point into the text as it was
written.  A glyph therefore keeps the byte it starts at and the blanks just before it;
the second lets a run of glyphs give back the text that it covers.
-/
import Branchwise.Text.Blank

namespace Branchwise.Text

/-- A character that is not blank, with its place in the text. -/
structure Glyph where
  char : Char
  /-- The byte of the UTF-8 text at which the character starts. -/
  offset : Nat
  /-- The blanks between the glyph before and this one. -/
  blanksBefore : List Char
deriving DecidableEq, Repr

namespace Glyph

/-- The glyphs of a text whose first byte has this offset and is preceded by these blanks. -/
def ofTextFrom (offset : Nat) (blanks : List Char) : List Char → List Glyph
  | [] => []
  | c :: rest =>
    if isBlank c then ofTextFrom (offset + c.utf8Size) (blanks ++ [c]) rest
    else ⟨c, offset, blanks⟩ :: ofTextFrom (offset + c.utf8Size) [] rest

/-- The glyphs of a whole text. -/
def ofText (text : List Char) : List Glyph :=
  ofTextFrom 0 [] text

/-- The text that a run of glyphs covers, from its first character to its last. -/
def covered : List Glyph → List Char
  | [] => []
  | first :: others => first.char :: others.flatMap fun g => g.blanksBefore ++ [g.char]

/-- Whether the glyphs start with this word. -/
def spells : List Char → List Glyph → Bool
  | [], _ => true
  | _ :: _, [] => false
  | c :: word, g :: rest => c == g.char && spells word rest

theorem map_char_ofTextFrom (offset : Nat) (blanks text : List Char) :
    (ofTextFrom offset blanks text).map char = strip text := by
  induction text generalizing offset blanks with
  | nil => rfl
  | cons c rest ih => by_cases h : isBlank c <;> simp [ofTextFrom, strip, h, ih]

/-- The characters of the glyphs are those of the text less its blanks. -/
theorem map_char_ofText (text : List Char) : (ofText text).map char = strip text :=
  map_char_ofTextFrom 0 [] text

theorem spells_eq_isPrefixOf (word : List Char) (glyphs : List Glyph) :
    spells word glyphs = word.isPrefixOf (glyphs.map char) := by
  induction word generalizing glyphs with
  | nil => simp [spells]
  | cons c word ih => cases glyphs <;> simp [spells, List.isPrefixOf, ih]

end Glyph

end Branchwise.Text
