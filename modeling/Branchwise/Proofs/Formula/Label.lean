/-
What the error of a formula that cannot be parsed points at.

The error has one label, on the first token behind the longest beginning that is an expression.  That
token was read from the text: an implied product stands before a value, and a beginning followed by
an operator and a value is not the longest.  So there is a stretch of the formula that the label is
about, and the label starts where the stretch starts.

It need not end there.  A label is as long as the literal of its token, and the literal of a keyword
leaves out the blanks that are written inside the keyword.
-/
import Mathlib
import Branchwise.Formula
import Branchwise.Proofs.Formula.Unread

namespace Branchwise

open String (utf8Len)
open Text (isBlank)

/-! ### The token that is pointed at -/

theorem labels_incomplete {ts : List Token} {c : IncompleteExpression} {t : Token}
    (h : parse ts = .error c) (ht : ts[c.consumed]? = some t) (formula : String) :
    (FormulaError.incomplete c).labels formula = [⟨t.span, "cannot continue from here"⟩] := by
  have hunread := (isLongestBeginning_of_parse h).2
  simp [FormulaError.labels, hunread, ht]

/-- Where there are tokens, there is one to point at. -/
theorem exists_unread {ts : List Token} {c : IncompleteExpression} (h : parse ts = .error c)
    (hts : ts ≠ []) : ∃ t, ts[c.consumed]? = some t := by
  have hlt := (isLongestBeginning_of_parse h).1.lt_length hts
  exact ⟨ts[c.consumed], List.getElem?_eq_getElem hlt⟩

/-- **An error tells how many tokens the longest beginning has that is an expression, and points at
the token behind it.**  Without tokens it points at the end of the formula. -/
theorem parse_error_points_behind_longest {ts : List Token} {c : IncompleteExpression}
    (h : parse ts = .error c) (formula : String) :
    (IsGreatest {k | k < ts.length ∧ Derivable (ts.take k)} c.consumed ∨
        c.consumed = 0 ∧ ∀ k < ts.length, ¬ Derivable (ts.take k)) ∧
      (ts ≠ [] → ∃ t, ts[c.consumed]? = some t ∧
        (FormulaError.incomplete c).labels formula = [⟨t.span, "cannot continue from here"⟩]) ∧
      (ts = [] → (FormulaError.incomplete c).labels formula =
        [⟨⟨formula.utf8ByteSize, 0⟩, "cannot continue from here"⟩]) := by
  obtain ⟨hlongest, hunread⟩ := isLongestBeginning_of_parse h
  refine ⟨?_, ?_, ?_⟩
  · by_cases hpos : 0 < c.consumed
    · refine .inl ⟨hlongest.derivable hpos, ?_⟩
      intro k hk
      by_contra hlt
      exact hlongest.longest k (Nat.lt_of_not_le hlt) hk.1 hk.2
    · have hzero : c.consumed = 0 := by omega
      refine .inr ⟨hzero, ?_⟩
      intro k hk hderivable
      by_cases hk0 : k = 0
      · exact hderivable.ne_nil (by simp [hk0])
      · exact hlongest.longest k (by omega) hk hderivable
  · intro hts
    obtain ⟨t, ht⟩ := exists_unread h hts
    exact ⟨t, ht, labels_incomplete h ht formula⟩
  · intro hts
    simp [FormulaError.labels, hunread, hts]

/-- A difference, and then a product without its second operand. -/
theorem parse_error_points_behind_longest_operator :
    let ts : List Token := [⟨.letter, "z", 0⟩, ⟨.binary, "-", 1⟩, ⟨.letter, "z", 2⟩,
      ⟨.binary, "*", 4⟩, ⟨.rightParen, ")", 5⟩, ⟨.letter, "z", 6⟩]
    let c : IncompleteExpression := ⟨3, some ⟨.binary, "*", 4⟩⟩
    parse ts = .error c ∧
      (IsGreatest {k | k < ts.length ∧ Derivable (ts.take k)} c.consumed ∨
        c.consumed = 0 ∧ ∀ k < ts.length, ¬ Derivable (ts.take k)) ∧
      (ts ≠ [] → ∃ t, ts[c.consumed]? = some t ∧
        (FormulaError.incomplete c).labels "z-z *)z" = [⟨t.span, "cannot continue from here"⟩]) ∧
      (ts = [] → (FormulaError.incomplete c).labels "z-z *)z" =
        [⟨⟨"z-z *)z".utf8ByteSize, 0⟩, "cannot continue from here"⟩]) := by
  intro ts c
  have h : parse ts = .error c := by cbv
  exact ⟨h, parse_error_points_behind_longest h "z-z *)z"⟩

/-! ### The stretch that is pointed at -/

/-- The token that is pointed at was read from the text. -/
theorem exists_stretch_of_unread {formula : String} {ts : List Token} {c : IncompleteExpression}
    {t : Token} (htokens : tokenize formula = .ok ts) (h : parse ts = .error c)
    (ht : ts[c.consumed]? = some t) : ∃ stretch, t.HasStretch formula stretch := by
  obtain ⟨us, hcuts, -, rfl⟩ := tokenize_eq_ok_iff.1 htokens
  rcases Token.getElem?_insertProducts ht with hmem | ⟨⟨offset, hproduct⟩, ⟨v, hv, hvalue⟩, hfirst⟩
  · exact Token.exists_hasStretch hcuts hmem
  · -- Nothing is implied before the first token, so the beginning is not empty.
    have hpos : 0 < c.consumed := by
      by_contra hzero
      have hbehind := hfirst (by omega)
      simp at hbehind
    have hbinary : t.kind = .binary := by rw [hproduct]; rfl
    exact absurd hvalue (not_isValue_behind_unread htokens h hpos ht hbinary hv)

namespace Formula

/-- **The error of a formula that is not parsed is about a stretch of the formula, and its label
shows the token there unless blanks are written inside a keyword.** -/
theorem label_shows_unread_iff {formula : String} {ts : List Token} {c : IncompleteExpression}
    (htokens : tokenize formula = .ok ts) (hts : ts ≠ []) (h : Branchwise.parse ts = .error c) :
    ∃ t stretch, ts[c.consumed]? = some t ∧ t.HasStretch formula stretch ∧
      (FormulaError.incomplete c).labels formula = [⟨t.span, "cannot continue from here"⟩] ∧
      t.span.offset + t.span.length ≤ formula.utf8ByteSize ∧
      (t.span.Shows formula t ↔ t.kind.keepsText ∨ ∀ char ∈ stretch.toList, ¬ isBlank char) := by
  obtain ⟨t, ht⟩ := exists_unread h hts
  obtain ⟨stretch, hstretch⟩ := exists_stretch_of_unread htokens h ht
  have hwithin := hstretch.covers.le_utf8ByteSize
  have hlength := hstretch.length_span_le
  refine ⟨t, stretch, ht, hstretch, labels_incomplete h ht formula, ?_, hstretch.shows_span_iff⟩
  show t.offset + t.span.length ≤ formula.utf8ByteSize
  simp only at hwithin
  omega

/-- A constant that nothing joins to the group before it, with a blank of three bytes inside. -/
theorem label_shows_unread_iff_constant :
    let formula := "(z)p\u2003i"
    let ts : List Token := [⟨.leftParen, "(", 0⟩, ⟨.letter, "z", 1⟩, ⟨.rightParen, ")", 2⟩,
      ⟨.constant, "pi", 3⟩]
    let c : IncompleteExpression := ⟨3, some ⟨.constant, "pi", 3⟩⟩
    tokenize formula = .ok ts ∧ ts ≠ [] ∧ Branchwise.parse ts = .error c ∧
      ∃ t stretch, ts[c.consumed]? = some t ∧ t.HasStretch formula stretch ∧
        (FormulaError.incomplete c).labels formula = [⟨t.span, "cannot continue from here"⟩] ∧
        t.span.offset + t.span.length ≤ formula.utf8ByteSize ∧
        (t.span.Shows formula t ↔ t.kind.keepsText ∨ ∀ char ∈ stretch.toList, ¬ isBlank char) := by
  intro formula ts c
  have htokens : tokenize formula = .ok ts := by cbv
  have hts : ts ≠ [] := List.cons_ne_nil _ _
  have h : Branchwise.parse ts = .error c := by cbv
  exact ⟨htokens, hts, h, label_shows_unread_iff htokens hts h⟩

/-- With such a blank between its two letters, the name of the logarithm gets a label of two bytes,
which ends inside the blank. -/
theorem label_ends_inside_character :
    let formula := "z l\u3000n"
    let ts : List Token := [⟨.letter, "z", 0⟩, ⟨.function1, "ln", 2⟩]
    let c : IncompleteExpression := ⟨1, some ⟨.function1, "ln", 2⟩⟩
    tokenize formula = .ok ts ∧ ts ≠ [] ∧ Branchwise.parse ts = .error c ∧
      (FormulaError.incomplete c).labels formula = [⟨⟨2, 2⟩, "cannot continue from here"⟩] ∧
      ∀ text, ¬ (Span.mk 2 2).Covers formula text := by
  intro formula ts c
  have htokens : tokenize formula = .ok ts := by cbv
  have h : Branchwise.parse ts = .error c := by cbv
  refine ⟨htokens, List.cons_ne_nil _ _, h, labels_incomplete h rfl formula, ?_⟩
  intro text hcovers
  obtain ⟨n, hn⟩ := hcovers.exists_take
  have hends : ∀ n ≤ 5, utf8Len (formula.toList.take n) ≠ 4 := by decide
  by_cases hle : n ≤ 5
  · exact hends n hle hn
  · have hlength : formula.toList.length = 5 := by decide
    rw [List.take_of_length_le (by omega)] at hn
    exact absurd hn (by decide)

end Formula

end Branchwise
