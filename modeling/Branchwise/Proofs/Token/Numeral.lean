/-
Digits that are read as a number write one.

The reader of formulas only looks for where a number ends; what it is worth is found by the reader
of decimals, which knows signs, exponents and words too and may refuse.  It never refuses here.
What is handed over is a numeral: digits, and behind them perhaps a point with more digits.
-/
import Branchwise.Proofs.Decimal.Grammar
import Branchwise.Proofs.Token.Characters

namespace Branchwise

/-- Digits, or digits with a point between them. -/
inductive IsNumeral : List Char → Prop
  | whole {digits : List Char} (hne : digits ≠ []) (hdigits : ∀ c ∈ digits, c.isDigit) :
      IsNumeral digits
  | pointed {digits fraction : List Char} (hne : digits ≠ []) (hdigits : ∀ c ∈ digits, c.isDigit)
      (hne' : fraction ≠ []) (hfraction : ∀ c ∈ fraction, c.isDigit) :
      IsNumeral (digits ++ '.' :: fraction)

namespace Decimal

variable {digits : List Char}

/-- Digits are worth the whole number that they write. -/
theorem readDigits?_whole (hne : digits ≠ []) (hdigits : ∀ c ∈ digits, c.isDigit) :
    readDigits? digits = some (scaled (digitsValue digits) 0) := by
  have htake := List.takeWhile_eq_self_iff.2 hdigits
  have hdrop := List.dropWhile_eq_nil_iff.2 hdigits
  simp [readDigits?, htake, hdrop, hne, readExponent?]

/-- Each digit behind the point makes the number ten times as fine. -/
theorem readDigits?_pointed {fraction : List Char} (hne : digits ≠ [])
    (hdigits : ∀ c ∈ digits, c.isDigit) (hfraction : ∀ c ∈ fraction, c.isDigit) :
    readDigits? (digits ++ '.' :: fraction) =
      some (scaled (digitsValue (digits ++ fraction)) (-fraction.length)) := by
  have htake := List.takeWhile_eq_self_iff.2 hfraction
  have hdrop := List.dropWhile_eq_nil_iff.2 hfraction
  have hpoint : ¬ '.'.isDigit := by decide
  have htakeAll : (digits ++ '.' :: fraction).takeWhile Char.isDigit = digits := by
    rw [List.takeWhile_append_of_pos hdigits, List.takeWhile_cons_of_neg hpoint, List.append_nil]
  have hdropAll : (digits ++ '.' :: fraction).dropWhile Char.isDigit = '.' :: fraction := by
    rw [List.dropWhile_append_of_pos hdigits, List.dropWhile_cons_of_neg hpoint]
  simp [readDigits?, htakeAll, hdropAll, htake, hdrop, hne, readExponent?]

/-- A digit is no sign. -/
theorem takeSign_of_isDigit {c : Char} (hc : c.isDigit) (rest : List Char) :
    takeSign (c :: rest) = (false, c :: rest) := by
  refine takeSign_of_ne ?_ ?_ rest
  · rintro rfl
    exact absurd hc (by decide)
  · rintro rfl
    exact absurd hc (by decide)

theorem toLower_of_isDigit {c : Char} (hc : c.isDigit) : c.toLower = c := by
  have hupper : ¬ (c.val ≥ 'A'.val ∧ c.val ≤ 'Z'.val) := by
    simp only [Char.isDigit, Bool.and_eq_true, decide_eq_true_eq] at hc
    rintro ⟨hletter, -⟩
    exact absurd (UInt32.le_trans hletter hc.2) (by decide)
  exact dif_neg hupper

end Decimal

theorem IsNumeral.exists_cons {text : List Char} (h : IsNumeral text) :
    ∃ c rest, text = c :: rest ∧ c.isDigit := by
  cases h with
  | whole hne hdigits =>
    obtain ⟨c, rest, rfl⟩ := List.exists_cons_of_ne_nil hne
    exact ⟨c, rest, rfl, hdigits c List.mem_cons_self⟩
  | pointed hne hdigits =>
    obtain ⟨c, rest, rfl⟩ := List.exists_cons_of_ne_nil hne
    exact ⟨c, _, rfl, hdigits c List.mem_cons_self⟩

/-- What holds of digits and of the point holds all along a numeral. -/
theorem IsNumeral.forall_mem {text : List Char} (h : IsNumeral text) {P : Char → Prop}
    (hdigit : ∀ c : Char, c.isDigit → P c) (hpoint : P '.') : ∀ c ∈ text, P c := by
  cases h with
  | whole hne hdigits => exact fun c hc => hdigit c (hdigits c hc)
  | pointed hne hdigits hne' hfraction =>
    refine List.forall_mem_append.2 ⟨fun c hc => hdigit c (hdigits c hc), ?_⟩
    exact List.forall_mem_cons.2 ⟨hpoint, fun c hc => hdigit c (hfraction c hc)⟩

/-- The words for numbers begin with a letter. -/
theorem IsNumeral.not_isWord {text : List Char} (h : IsNumeral text) : ¬ Decimal.IsWord text := by
  intro hword
  obtain ⟨c, rest, rfl, hdigit⟩ := h.exists_cons
  obtain ⟨d, _, hcons, hletter⟩ := hword.exists_cons
  obtain ⟨rfl, -⟩ := List.cons.inj hcons
  rw [Decimal.toLower_of_isDigit hdigit] at hletter
  rcases hletter with rfl | rfl <;> exact absurd hdigit (by decide)

/-- A numeral is worth its digits, scaled by where the point stands. -/
theorem IsNumeral.exists_scaled {text : List Char} (h : IsNumeral text) :
    ∃ n e, Decimal.read? text = some (Decimal.scaled n e) := by
  have hdigits : ∃ n e, Decimal.readDigits? text = some (Decimal.scaled n e) := by
    cases h with
    | whole hne hdigits => exact ⟨_, _, Decimal.readDigits?_whole hne hdigits⟩
    | pointed hne hdigits _ hfraction =>
      exact ⟨_, _, Decimal.readDigits?_pointed hne hdigits hfraction⟩
  obtain ⟨n, e, hscaled⟩ := hdigits
  have hunsigned := Decimal.readUnsigned?_of_not_isWord h.not_isWord
  obtain ⟨c, rest, rfl, hc⟩ := h.exists_cons
  refine ⟨n, e, ?_⟩
  rw [Decimal.read?, Decimal.takeSign_of_isDigit hc]
  simp [hunsigned, hscaled]

/-- **A numeral writes a number.** -/
theorem IsNumeral.exists_read? {text : List Char} (h : IsNumeral text) :
    ∃ x, Decimal.read? text = some x := by
  obtain ⟨n, e, hscaled⟩ := h.exists_scaled
  exact ⟨_, hscaled⟩

namespace Token

theorem take_length_takeWhile (text : List Char) :
    text.take (text.takeWhile Char.isDigit).length = text.takeWhile Char.isDigit :=
  (List.prefix_iff_eq_take.1 (List.takeWhile_prefix Char.isDigit)).symm

/-- **What the reader takes for a number is a numeral.** -/
theorem isNumeral_take_digitsWidth {c : Char} (hc : c.isDigit) (rest : List Char) :
    IsNumeral ((c :: rest).take (digitsWidth (c :: rest))) := by
  have hne : (c :: rest).takeWhile Char.isDigit ≠ [] := by
    rw [List.takeWhile_cons_of_pos hc]
    exact List.cons_ne_nil _ _
  have hwhole : IsNumeral ((c :: rest).take ((c :: rest).takeWhile Char.isDigit).length) := by
    rw [take_length_takeWhile]
    exact .whole hne (Decimal.isDigit_of_mem_takeWhile _)
  unfold digitsWidth
  dsimp only
  split
  · exact hwhole
  · rename_i mark behind hdrop
    split
    · rename_i hpoint
      obtain ⟨rfl, hfraction⟩ : mark = '.' ∧ (behind.takeWhile Char.isDigit).length ≠ 0 := by
        simpa using hpoint
      have htake : (c :: rest).take (((c :: rest).takeWhile Char.isDigit).length + 1 +
          (behind.takeWhile Char.isDigit).length) =
            (c :: rest).takeWhile Char.isDigit ++ '.' :: behind.takeWhile Char.isDigit := by
        rw [Nat.add_assoc, List.take_add, hdrop, take_length_takeWhile, Nat.add_comm 1,
          List.take_succ_cons, take_length_takeWhile]
      rw [htake]
      exact .pointed hne (Decimal.isDigit_of_mem_takeWhile _) (by simpa using hfraction)
        (Decimal.isDigit_of_mem_takeWhile _)
    · exact hwhole

end Token

end Branchwise
