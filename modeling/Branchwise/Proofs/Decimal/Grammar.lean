/-
Which texts write a number.

The grammar has a sign, a word or digits with at most one point, and an exponent.  The reader goes
from left to right and never back: it takes a sign if there is one, then as many digits as there are,
a point, digits again, and wants an exponent in the rest.  Nothing is lost by this, for what may
follow a part never starts as the part goes on: no sign behind a sign, no digit behind digits, no point
behind the digits of a fraction.
-/
import Mathlib.Data.List.Basic
import Mathlib.Data.List.TakeWhile
import Branchwise.Decimal.Numeral

namespace Branchwise.Decimal

/-! ### The grammar -/

/-- At most one sign. -/
inductive IsSign : List Char → Prop
  | none : IsSign []
  | plus : IsSign ['+']
  | minus : IsSign ['-']

/-- Digits with at most one point among them, at least one digit beside it. -/
inductive IsMantissa : List Char → Prop
  | whole {digits : List Char} (hne : digits ≠ []) (hdigits : ∀ c ∈ digits, c.isDigit) :
      IsMantissa digits
  | pointed {whole fraction : List Char} (hne : whole ≠ [] ∨ fraction ≠ [])
      (hwhole : ∀ c ∈ whole, c.isDigit) (hfraction : ∀ c ∈ fraction, c.isDigit) :
      IsMantissa (whole ++ '.' :: fraction)

/-- No exponent, or a mark with digits behind it that may have a sign. -/
inductive IsExponent : List Char → Prop
  | none : IsExponent []
  | marked {mark : Char} {sign digits : List Char} (hmark : mark = 'e' ∨ mark = 'E')
      (hsign : IsSign sign) (hne : digits ≠ []) (hdigits : ∀ c ∈ digits, c.isDigit) :
      IsExponent (mark :: (sign ++ digits))

/-- A word for what digits cannot write, in small or capital letters. -/
def IsWord (text : List Char) : Prop :=
  text.map Char.toLower ∈ ["inf".toList, "infinity".toList, "nan".toList]

/-- A number without its sign. -/
inductive IsMagnitude : List Char → Prop
  | word {text : List Char} (h : IsWord text) : IsMagnitude text
  | digits {mantissa exponent : List Char} (hmantissa : IsMantissa mantissa)
      (hexponent : IsExponent exponent) : IsMagnitude (mantissa ++ exponent)

/-- The text writes a number. -/
def IsNumber (text : List Char) : Prop :=
  ∃ sign magnitude, text = sign ++ magnitude ∧ IsSign sign ∧ IsMagnitude magnitude

/-! ### Characters of a number -/

section Characters

variable {text : List Char} {P : Char → Prop} (hdigit : ∀ c : Char, c.isDigit → P c)
  (hmark : ∀ c ∈ ['+', '-', '.', 'e', 'E'], P c)
  (hletter : ∀ c : Char, c.toLower ∈ "infinitynan".toList → P c)

include hmark in
theorem IsSign.forall_mem (h : IsSign text) : ∀ c ∈ text, P c := by
  cases h with
  | none => exact nofun
  | plus => exact List.forall_mem_singleton.2 (hmark '+' (by simp))
  | minus => exact List.forall_mem_singleton.2 (hmark '-' (by simp))

include hdigit hmark in
theorem IsMantissa.forall_mem (h : IsMantissa text) : ∀ c ∈ text, P c := by
  cases h with
  | whole hne hdigits => exact fun c hc => hdigit c (hdigits c hc)
  | pointed hne hwhole hfraction =>
    refine List.forall_mem_append.2 ⟨fun c hc => hdigit c (hwhole c hc), ?_⟩
    exact List.forall_mem_cons.2 ⟨hmark '.' (by simp), fun c hc => hdigit c (hfraction c hc)⟩

include hdigit hmark in
theorem IsExponent.forall_mem (h : IsExponent text) : ∀ c ∈ text, P c := by
  cases h with
  | none => exact nofun
  | @marked mark sign digits hwhich hsign hne hdigits =>
    have hfirst : P mark := hmark mark (by rcases hwhich with rfl | rfl <;> simp)
    refine List.forall_mem_cons.2 ⟨hfirst, ?_⟩
    exact List.forall_mem_append.2 ⟨hsign.forall_mem hmark, fun c hc => hdigit c (hdigits c hc)⟩

include hletter in
theorem IsWord.forall_mem (h : IsWord text) : ∀ c ∈ text, P c := by
  intro c hc
  have hlower : c.toLower ∈ text.map Char.toLower := List.mem_map_of_mem hc
  have hwords : ∀ word ∈ ["inf".toList, "infinity".toList, "nan".toList],
      word ⊆ "infinitynan".toList := by decide
  exact hletter c (hwords _ h hlower)

include hdigit hmark hletter in
/-- What holds of digits, of the marks of a number and of the letters of its words holds all along
it. -/
theorem IsNumber.forall_mem (h : IsNumber text) : ∀ c ∈ text, P c := by
  obtain ⟨sign, magnitude, rfl, hsign, hmagnitude⟩ := h
  refine List.forall_mem_append.2 ⟨hsign.forall_mem hmark, ?_⟩
  cases hmagnitude with
  | word hword => exact hword.forall_mem hletter
  | digits hmantissa hexponent =>
    exact List.forall_mem_append.2 ⟨hmantissa.forall_mem hdigit hmark,
      hexponent.forall_mem hdigit hmark⟩

/-- A character that no part of a number has is in no number. -/
theorem IsNumber.not_mem (h : IsNumber text) {c : Char} (hc : ¬ c.isDigit)
    (hc' : c ∉ ['+', '-', '.', 'e', 'E']) (hc'' : c.toLower ∉ "infinitynan".toList) :
    c ∉ text := by
  intro hmem
  refine IsNumber.forall_mem (P := (· ≠ c)) ?_ ?_ ?_ h c hmem rfl
  · rintro d hd rfl
    exact hc hd
  · rintro d hd rfl
    exact hc' hd
  · rintro d hd rfl
    exact hc'' hd

end Characters

/-! ### The reader -/

section Reader

variable {text : List Char}

theorem takeSign_of_ne {c : Char} (hplus : c ≠ '+') (hminus : c ≠ '-') (rest : List Char) :
    takeSign (c :: rest) = (false, c :: rest) := by
  unfold takeSign
  split <;> simp_all

/-- What is taken off is a sign. -/
theorem exists_takeSign (text : List Char) :
    ∃ sign, IsSign sign ∧ text = sign ++ (takeSign text).2 := by
  unfold takeSign
  split
  · exact ⟨['-'], .minus, rfl⟩
  · exact ⟨['+'], .plus, rfl⟩
  · exact ⟨[], .none, rfl⟩

/-- A sign is taken off whole if no other sign follows. -/
theorem takeSign_append {sign rest : List Char} (h : IsSign sign)
    (hplus : rest.head? ≠ some '+') (hminus : rest.head? ≠ some '-') :
    (takeSign (sign ++ rest)).2 = rest := by
  cases h with
  | plus => rfl
  | minus => rfl
  | none =>
    cases rest with
    | nil => rfl
    | cons c rest =>
      rw [List.nil_append, takeSign_of_ne (by simpa using hplus) (by simpa using hminus)]

/-- Digits do not begin like anything that is not one. -/
theorem head?_ne_of_digits {digits : List Char} (hdigits : ∀ c ∈ digits, c.isDigit) {c : Char}
    (hc : ¬ c.isDigit) : digits.head? ≠ some c := by
  intro hhead
  exact hc (hdigits c (List.mem_of_mem_head? hhead))

theorem isSome_readExponent?_iff : (readExponent? text).isSome ↔ IsExponent text := by
  cases text with
  | nil => exact ⟨fun _ => .none, fun _ => rfl⟩
  | cons mark rest =>
    have hread : (readExponent? (mark :: rest)).isSome ↔
        (mark = 'e' ∨ mark = 'E') ∧ (takeSign rest).2 ≠ [] ∧
          ∀ c ∈ (takeSign rest).2, c.isDigit := by
      simp [readExponent?, and_assoc]
    rw [hread]
    refine ⟨?_, ?_⟩
    · rintro ⟨hmark, hne, hdigits⟩
      obtain ⟨sign, hsign, hrest⟩ := exists_takeSign rest
      rw [hrest]
      exact .marked hmark hsign hne hdigits
    · intro hexponent
      cases hexponent with
      | marked hmark hsign hne hdigits =>
        rw [takeSign_append hsign (head?_ne_of_digits hdigits (by decide))
          (head?_ne_of_digits hdigits (by decide))]
        exact ⟨hmark, hne, hdigits⟩

theorem IsExponent.head?_eq {c : Char} (h : IsExponent text) (hc : text.head? = some c) :
    c = 'e' ∨ c = 'E' := by
  cases h with
  | none => cases hc
  | marked hmark => cases hc; exact hmark

/-- Digits are taken as far as they go. -/
theorem span_digits_append {digits rest : List Char} (hdigits : ∀ c ∈ digits, c.isDigit)
    (hrest : ∀ c ∈ rest.head?, ¬ c.isDigit) :
    (digits ++ rest).takeWhile Char.isDigit = digits ∧
      (digits ++ rest).dropWhile Char.isDigit = rest := by
  rw [List.takeWhile_append_of_pos hdigits, List.dropWhile_append_of_pos hdigits]
  cases rest with
  | nil => simp
  | cons c rest =>
    have hc : ¬ c.isDigit := hrest c rfl
    rw [List.takeWhile_cons_of_neg hc, List.dropWhile_cons_of_neg hc]
    simp

theorem IsExponent.not_isDigit_of_mem_head? (h : IsExponent text) :
    ∀ c ∈ text.head?, ¬ c.isDigit := by
  intro c hc
  rcases h.head?_eq hc with rfl | rfl <;> decide

/-- Digits without a point behind them are a mantissa of their own. -/
theorem isSome_readDigits?_of_whole {digits exponent : List Char} (hne : digits ≠ [])
    (hdigits : ∀ c ∈ digits, c.isDigit) (hexponent : IsExponent exponent) :
    (readDigits? (digits ++ exponent)).isSome := by
  obtain ⟨htake, hdrop⟩ := span_digits_append hdigits hexponent.not_isDigit_of_mem_head?
  have hpoint : exponent.head? ≠ some '.' := by
    intro hc
    rcases hexponent.head?_eq hc with h | h <;> cases h
  simp only [readDigits?, htake, hdrop, hpoint]
  simpa [hne] using isSome_readExponent?_iff.2 hexponent

theorem isSome_readDigits?_of_pointed {whole fraction exponent : List Char}
    (hne : whole ≠ [] ∨ fraction ≠ []) (hwhole : ∀ c ∈ whole, c.isDigit)
    (hfraction : ∀ c ∈ fraction, c.isDigit) (hexponent : IsExponent exponent) :
    (readDigits? (whole ++ '.' :: (fraction ++ exponent))).isSome := by
  have hpoint : ∀ c ∈ ('.' :: (fraction ++ exponent)).head?, ¬ c.isDigit := by
    rintro c ⟨⟩
    decide
  obtain ⟨htake, hdrop⟩ := span_digits_append hwhole hpoint
  obtain ⟨htake', hdrop'⟩ := span_digits_append hfraction hexponent.not_isDigit_of_mem_head?
  have hnot : ¬ (whole = [] ∧ fraction = []) := by
    rintro ⟨hw, hf⟩
    exact hne.elim (· hw) (· hf)
  simp only [readDigits?, htake, hdrop, List.head?_cons, List.tail_cons, htake', hdrop']
  simpa [hnot] using isSome_readExponent?_iff.2 hexponent

theorem isDigit_of_mem_takeWhile (text : List Char) :
    ∀ c ∈ text.takeWhile Char.isDigit, c.isDigit :=
  List.all_eq_true.1 List.all_takeWhile

/-- What the reader of digits takes in is a mantissa, and it leaves an exponent. -/
theorem exists_mantissa_of_readDigits? (h : (readDigits? text).isSome) :
    ∃ mantissa exponent, text = mantissa ++ exponent ∧ IsMantissa mantissa ∧
      IsExponent exponent := by
  have hsplit : text.takeWhile Char.isDigit ++ text.dropWhile Char.isDigit = text :=
    List.takeWhile_append_dropWhile
  have hwhole := isDigit_of_mem_takeWhile text
  unfold readDigits? at h
  dsimp only at h
  by_cases hpoint : (text.dropWhile Char.isDigit).head? = some '.'
  · obtain ⟨behind, hbehind⟩ := List.head?_eq_some_iff.1 hpoint
    simp only [hbehind, List.head?_cons, List.tail_cons, if_true] at h
    split at h
    · cases h
    · rename_i hne
      rw [Option.isSome_map, isSome_readExponent?_iff] at h
      rw [Bool.and_eq_true, List.isEmpty_iff, List.isEmpty_iff] at hne
      refine ⟨_, _, ?_, .pointed (not_and_or.1 hne) hwhole (isDigit_of_mem_takeWhile behind), h⟩
      rw [List.append_assoc, List.cons_append, List.takeWhile_append_dropWhile, ← hbehind, hsplit]
  · simp only [hpoint, if_false] at h
    split at h
    · cases h
    · rename_i hne
      rw [Option.isSome_map, isSome_readExponent?_iff] at h
      exact ⟨_, _, hsplit.symm, .whole (by simpa using hne) hwhole, h⟩

theorem isSome_readDigits?_iff : (readDigits? text).isSome ↔
    ∃ mantissa exponent, text = mantissa ++ exponent ∧ IsMantissa mantissa ∧
      IsExponent exponent := by
  refine ⟨exists_mantissa_of_readDigits?, ?_⟩
  rintro ⟨mantissa, exponent, rfl, hmantissa, hexponent⟩
  cases hmantissa with
  | whole hne hdigits => exact isSome_readDigits?_of_whole hne hdigits hexponent
  | pointed hne hwhole hfraction =>
    rw [List.append_assoc]
    exact isSome_readDigits?_of_pointed hne hwhole hfraction hexponent

theorem isWord_iff : IsWord text ↔
    String.ofList (text.map Char.toLower) = "inf" ∨
      String.ofList (text.map Char.toLower) = "infinity" ∨
        String.ofList (text.map Char.toLower) = "nan" := by
  simp only [IsWord, List.mem_cons, List.not_mem_nil, or_false, ← String.toList_inj,
    String.toList_ofList]

theorem isSome_readUnsigned?_of_isWord (h : IsWord text) : (readUnsigned? text).isSome := by
  rcases isWord_iff.1 h with hword | hword | hword <;> simp [readUnsigned?, hword]

/-- Digits are looked for where there is no word. -/
theorem readUnsigned?_of_not_isWord (h : ¬ IsWord text) :
    readUnsigned? text = readDigits? text := by
  rw [isWord_iff] at h
  obtain ⟨hinf, hinfinity, hnan⟩ : _ ∧ _ ∧ _ := by simpa only [not_or] using h
  simp only [readUnsigned?, hinf, hinfinity, hnan, decide_false, Bool.or_self, Bool.false_eq_true,
    if_false]

theorem isSome_readUnsigned?_iff : (readUnsigned? text).isSome ↔ IsMagnitude text := by
  by_cases hword : IsWord text
  · exact iff_of_true (isSome_readUnsigned?_of_isWord hword) (.word hword)
  · rw [readUnsigned?_of_not_isWord hword, isSome_readDigits?_iff]
    refine ⟨?_, ?_⟩
    · rintro ⟨mantissa, exponent, rfl, hmantissa, hexponent⟩
      exact .digits hmantissa hexponent
    · intro h
      cases h with
      | word h => exact absurd h hword
      | digits hmantissa hexponent => exact ⟨_, _, rfl, hmantissa, hexponent⟩

theorem IsWord.exists_cons (h : IsWord text) :
    ∃ c rest, text = c :: rest ∧ (c.toLower = 'i' ∨ c.toLower = 'n') := by
  have hheads : ∀ word ∈ ["inf".toList, "infinity".toList, "nan".toList],
      word.head? = some 'i' ∨ word.head? = some 'n' := by decide
  have hhead := hheads _ h
  rw [List.head?_map] at hhead
  cases text with
  | nil => simp at hhead
  | cons c rest => exact ⟨c, rest, rfl, by simpa using hhead⟩

/-- How a magnitude begins. -/
theorem IsMagnitude.exists_cons (h : IsMagnitude text) :
    ∃ c rest, text = c :: rest ∧ (c.isDigit ∨ c = '.' ∨ c.toLower = 'i' ∨ c.toLower = 'n') := by
  cases h with
  | word hword =>
    obtain ⟨c, rest, rfl, hc⟩ := hword.exists_cons
    exact ⟨c, rest, rfl, .inr (.inr hc)⟩
  | digits hmantissa hexponent =>
    cases hmantissa with
    | whole hne hdigits =>
      obtain ⟨c, rest, rfl⟩ := List.exists_cons_of_ne_nil hne
      exact ⟨c, _, rfl, .inl (hdigits c List.mem_cons_self)⟩
    | @pointed whole fraction hne hwhole hfraction =>
      cases whole with
      | nil => exact ⟨'.', _, rfl, .inr (.inl rfl)⟩
      | cons c rest => exact ⟨c, _, rfl, .inl (hwhole c List.mem_cons_self)⟩

/-- A magnitude has no sign in front. -/
theorem IsMagnitude.head?_ne (h : IsMagnitude text) {mark : Char} (hmark : mark ∈ ['+', '-']) :
    text.head? ≠ some mark := by
  have hother : ¬ (mark.isDigit ∨ mark = '.' ∨ mark.toLower = 'i' ∨ mark.toLower = 'n') := by
    rcases List.mem_pair.1 hmark with rfl | rfl <;> decide
  obtain ⟨c, rest, rfl, hc⟩ := h.exists_cons
  intro hhead
  obtain rfl : c = mark := Option.some.inj hhead
  exact hother hc

/-- **The texts that are read are those that write a number.** -/
theorem isSome_read?_iff : (read? text).isSome ↔ IsNumber text := by
  have hread : (read? text).isSome ↔ IsMagnitude (takeSign text).2 := by
    rw [read?, Option.isSome_map, isSome_readUnsigned?_iff]
  rw [hread]
  refine ⟨?_, ?_⟩
  · intro hmagnitude
    obtain ⟨sign, hsign, htext⟩ := exists_takeSign text
    exact ⟨sign, _, htext, hsign, hmagnitude⟩
  · rintro ⟨sign, magnitude, rfl, hsign, hmagnitude⟩
    rwa [takeSign_append hsign (hmagnitude.head?_ne (by decide)) (hmagnitude.head?_ne (by decide))]

/-- The number that a text writes. -/
def IsNumber.value (h : IsNumber text) : Float :=
  (read? text).get (isSome_read?_iff.2 h)

theorem IsNumber.read?_eq (h : IsNumber text) : read? text = some h.value :=
  (Option.some_get _).symm

end Reader

end Branchwise.Decimal
