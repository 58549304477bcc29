/-
Which characters are blank.

Blanks separate nothing here: a formula means the same with its blanks removed, and
the fields of a point or of a batch line are trimmed.  Which characters count is the
Unicode property White_Space.  It is more than core's ASCII class `Char.isWhitespace`
and less than "anything that looks empty" (the zero width space is not in it), so it
is a table of its own.
-/

namespace Branchwise.Text

/-- The code points with the property White_Space, as closed ranges in ascending order. -/
def blankRanges : List (Nat × Nat) :=
  [(0x9, 0xD), (0x20, 0x20), (0x85, 0x85), (0xA0, 0xA0), (0x1680, 0x1680), (0x2000, 0x200A),
    (0x2028, 0x2029), (0x202F, 0x202F), (0x205F, 0x205F), (0x3000, 0x3000)]

/-- Whether the character has the property White_Space. -/
def isBlank (c : Char) : Bool :=
  blankRanges.any fun range => range.1 ≤ c.toNat && c.toNat ≤ range.2

/-- The text without its blanks. -/
def strip (text : List Char) : List Char :=
  text.filter (!isBlank ·)

/-- The text without the blanks at its two ends. -/
def trim (text : List Char) : List Char :=
  ((text.dropWhile isBlank).reverse.dropWhile isBlank).reverse

end Branchwise.Text
