/-
Cutting a text at the first occurrence of a mark.
-/

namespace Branchwise.Text

/-- The text before the first `mark` and the text after it; nothing if there is no `mark`. -/
def cut? (mark : Char) : List Char → Option (List Char × List Char)
  | [] => none
  | c :: rest =>
    if c = mark then some ([], rest)
    else (cut? mark rest).map fun (before, after) => (c :: before, after)

theorem cut?_eq_none_iff {mark : Char} {text : List Char} :
    cut? mark text = none ↔ mark ∉ text := by
  induction text with
  | nil => simp [cut?]
  | cons c rest ih => by_cases h : c = mark <;> simp [cut?, h, ih, Ne.symm]

/-- A cut loses nothing but the mark, and the mark does not occur before the cut. -/
theorem cut?_eq_some_iff {mark : Char} {text before after : List Char} :
    cut? mark text = some (before, after) ↔ text = before ++ mark :: after ∧ mark ∉ before := by
  induction text generalizing before with
  | nil => simp [cut?]
  | cons c rest ih =>
    by_cases h : c = mark
    · cases before <;> simp [cut?, h]; grind
    · cases before <;> simp [cut?, h, Option.map_eq_some_iff, ih]; grind

end Branchwise.Text
