/-
What a formula is read as, said of its text alone.

A formula without its blanks falls into pieces: keywords, letters and numerals.  Which piece a text
starts with is a rule about the text, and the rule names no reader: the longest keyword; a letter
where no keyword stands; the longest numeral where none stands either.  A text starts with one piece
at most (`Piece.Leads.unique`), and that is the piece which scanning finds
(`Lexeme.piece?_scan_eq_some_iff`).
-/
import Mathlib
import Branchwise.Proofs.Token.Spelling
import Branchwise.Proofs.Token.Stretch

namespace Branchwise

open Text (Glyph isBlank strip)

/-! ### The longest keyword and the longest numeral -/

namespace Keyword

theorem spelling_injective {word other : Keyword} (h : word.spelling = other.spelling) :
    word = other := by
  have hall : ∀ word ∈ all, ∀ other ∈ all, word.spelling = other.spelling → word = other := by
    decide
  exact hall word (mem_all word) other (mem_all other) h

/-- **The longest keyword is the keyword that no other one at this place is longer than.** -/
theorem longest?_eq_some_iff {xs : List Glyph} {word : Keyword} :
    longest? xs = some word ↔ word.spelling.toList <+: xs.map Glyph.char ∧
      ∀ other : Keyword, other.spelling.toList <+: xs.map Glyph.char →
        other.spelling.length ≤ word.spelling.length := by
  refine ⟨?_, ?_⟩
  · intro h
    refine ⟨prefix_of_longest? h, ?_⟩
    intro other hother
    obtain ⟨best, hbest, hle⟩ := exists_longest?_of_prefix hother
    obtain rfl : best = word := Option.some.inj (hbest.symm.trans h)
    exact hle
  · intro h
    obtain ⟨hstart, hlongest⟩ := h
    obtain ⟨best, hbest, hle⟩ := exists_longest?_of_prefix hstart
    have hstart' := prefix_of_longest? hbest
    have hlength : word.spelling.toList.length = best.spelling.toList.length := by
      rw [String.length_toList, String.length_toList]
      exact Nat.le_antisymm hle (hlongest best hstart')
    have hsame : word.spelling.toList = best.spelling.toList :=
      (List.prefix_of_prefix_length_le hstart hstart' (Nat.le_of_eq hlength)).eq_of_length hlength
    rw [hbest, spelling_injective (String.toList_inj.1 hsame)]

theorem longest?_eq_none_iff {xs : List Glyph} :
    longest? xs = none ↔ ∀ word : Keyword, ¬ word.spelling.toList <+: xs.map Glyph.char := by
  refine ⟨?_, ?_⟩
  · intro h word hword
    obtain ⟨best, hbest, -⟩ := exists_longest?_of_prefix hword
    rw [h] at hbest
    cases hbest
  · intro h
    cases hlongest : longest? xs with
    | none => rfl
    | some word => exact absurd (prefix_of_longest? hlongest) (h word)

theorem not_isDigit_of_mem_spelling {word : Keyword} {c : Char} (h : c ∈ word.spelling.toList) :
    ¬ c.isDigit := by
  have hall : all.all fun word => word.spelling.toList.all (!·.isDigit) := by decide
  have hword := List.all_eq_true.1 (List.all_eq_true.1 hall word (mem_all word)) c h
  simpa using hword

end Keyword

theorem not_isDigit_of_isAlpha {c : Char} (h : c.isAlpha) : ¬ c.isDigit := by
  simp only [Char.isAlpha, Char.isUpper, Char.isLower, Char.isDigit, Bool.or_eq_true,
    Bool.and_eq_true, decide_eq_true_eq, ge_iff_le, UInt32.le_iff_toNat_le] at h ⊢
  simp at h ⊢
  omega

theorem not_isBlank_of_isAlpha {c : Char} (h : c.isAlpha) : ¬ isBlank c := by
  simp only [Char.isAlpha, Char.isUpper, Char.isLower, Bool.or_eq_true, Bool.and_eq_true,
    decide_eq_true_eq, ge_iff_le, UInt32.le_iff_toNat_le] at h
  simp [isBlank, Text.blankRanges] at h ⊢
  omega

/-- One more digit makes a longer numeral. -/
theorem IsNumeral.concat {digits : List Char} (h : IsNumeral digits) {c : Char} (hc : c.isDigit) :
    IsNumeral (digits ++ [c]) := by
  have hconcat {run : List Char} (hrun : ∀ d ∈ run, d.isDigit) : ∀ d ∈ run ++ [c], d.isDigit := by
    intro d hd
    rcases List.mem_append.1 hd with hmem | hlast
    · exact hrun d hmem
    · rwa [List.mem_singleton.1 hlast]
  cases h with
  | whole hne hdigits => exact .whole (by simp) (hconcat hdigits)
  | pointed hne hdigits hne' hfraction =>
    rw [List.append_assoc, List.cons_append]
    exact .pointed hne hdigits (by simp) (hconcat hfraction)

/-- No numeral at the start of a text is longer than the one that is read. -/
theorem Token.length_le_digitsWidth {digits text : List Char} (h : IsNumeral digits)
    (hstart : digits <+: text) : digits.length ≤ digitsWidth text := by
  obtain ⟨rest, rfl⟩ := hstart
  rw [digitsWidth_eq_add]
  cases h with
  | whole hne hdigits =>
    rw [List.takeWhile_append_of_pos hdigits, List.length_append]
    omega
  | @pointed whole fraction hne hdigits hne' hfraction =>
    have hpoint : ¬ '.'.isDigit := by decide
    have htake : (whole ++ '.' :: fraction ++ rest).takeWhile Char.isDigit = whole := by
      rw [List.append_assoc, List.takeWhile_append_of_pos hdigits, List.cons_append,
        List.takeWhile_cons_of_neg hpoint, List.append_nil]
    have hdrop : (whole ++ '.' :: fraction ++ rest).drop whole.length =
        '.' :: (fraction ++ rest) := by
      rw [List.append_assoc, List.drop_left, List.cons_append]
    have hlength : ((fraction ++ rest).takeWhile Char.isDigit).length ≥ fraction.length := by
      rw [List.takeWhile_append_of_pos hfraction, List.length_append]
      omega
    have hpos := List.length_pos_of_ne_nil hne'
    rw [htake, hdrop, fractionWidth, if_pos ⟨rfl, by omega⟩, List.length_append, List.length_cons]
    omega

/-! ### Pieces -/

/-- A word of a formula, blanks left out. -/
inductive Piece
  | keyword (word : Keyword)
  | letter (char : Char)
  | numeral (digits : List Char)
deriving DecidableEq

namespace Piece

/-- The characters of a piece. -/
def text : Piece → List Char
  | keyword word => word.spelling.toList
  | letter char => [char]
  | numeral digits => digits

/-- The letter that the piece is, if it is one. -/
def letter? : Piece → Option Char
  | letter char => some char
  | _ => none

theorem letter?_eq_some_iff {p : Piece} {c : Char} : p.letter? = some c ↔ p = letter c := by
  cases p <;> simp [letter?]

/-- The piece is what the text starts with: the longest keyword; a letter, or the longest numeral,
where no keyword stands. -/
inductive Leads : Piece → List Char → Prop
  | keyword {text : List Char} {word : Keyword} (hstart : word.spelling.toList <+: text)
      (hlongest : ∀ other : Keyword, other.spelling.toList <+: text →
        other.spelling.length ≤ word.spelling.length) :
      Leads (.keyword word) text
  | letter {text : List Char} {c : Char} (hstart : [c] <+: text)
      (hnone : ∀ word : Keyword, ¬ word.spelling.toList <+: text) (hletter : c.isAlpha) :
      Leads (.letter c) text
  | numeral {text digits : List Char} (hstart : digits <+: text)
      (hnone : ∀ word : Keyword, ¬ word.spelling.toList <+: text) (hnumeral : IsNumeral digits)
      (hlongest : ∀ longer, IsNumeral longer → longer <+: text → longer.length ≤ digits.length) :
      Leads (.numeral digits) text

variable {p q : Piece} {text rest : List Char}

theorem Leads.text_prefix (h : p.Leads text) : p.text <+: text := by
  cases h with
  | keyword hstart => exact hstart
  | letter hstart => exact hstart
  | numeral hstart => exact hstart

theorem Leads.text_ne_nil (h : p.Leads text) : p.text ≠ [] := by
  cases h with
  | keyword => exact Keyword.spelling_ne_nil _
  | letter => exact List.cons_ne_nil _ _
  | numeral hstart hnone hnumeral =>
    obtain ⟨c, digits, rfl, -⟩ := hnumeral.exists_cons
    exact List.cons_ne_nil _ _

/-- No digit stands before a numeral: it would be the end of a longer one. -/
theorem Leads.not_isDigit_of_numeral {digits : List Char} (h : p.Leads (p.text ++ rest))
    (hbehind : (Piece.numeral digits).Leads rest) : ∀ c ∈ p.text.getLast?, ¬ c.isDigit := by
  intro c hc
  have hmem := List.mem_of_getLast? hc
  cases h with
  | keyword => exact Keyword.not_isDigit_of_mem_spelling hmem
  | letter hstart hnone hletter =>
    rw [List.mem_singleton.1 hmem]
    exact not_isDigit_of_isAlpha hletter
  | numeral hstart hnone hnumeral hlongest =>
    cases hbehind with
    | numeral hstart' _ hnumeral' =>
      obtain ⟨d, others, rfl, hd⟩ := hnumeral'.exists_cons
      obtain ⟨tail, rfl⟩ := hstart'
      have hle := hlongest _ (hnumeral.concat hd) ⟨others ++ tail, by simp [text]⟩
      rw [List.length_append, List.length_singleton] at hle
      omega

end Piece

namespace Token

/-- The piece that a lexeme at `g` is. -/
def Lexeme.piece? (g : Glyph) (rest : List Glyph) : Lexeme → Option Piece
  | .keyword word => some (.keyword word)
  | .letter => some (.letter g.char)
  | .numeral width => some (.numeral (((g :: rest).take width).map Glyph.char))
  | .unknown => none

/-- **Scanning finds the piece that the text starts with.** -/
theorem Lexeme.piece?_scan_eq_some_iff {g : Glyph} {rest : List Glyph} {p : Piece} :
    (scan g rest).piece? g rest = some p ↔ p.Leads ((g :: rest).map Glyph.char) := by
  refine ⟨?_, ?_⟩
  · intro h
    rcases scan_cases g rest with ⟨word, hlongest, hscan⟩ | ⟨hnone, hscan⟩
    · obtain rfl : .keyword word = p := by rwa [hscan, piece?, Option.some.injEq] at h
      obtain ⟨hstart, hlongest⟩ := Keyword.longest?_eq_some_iff.1 hlongest
      exact .keyword hstart hlongest
    · have hnone := Keyword.longest?_eq_none_iff.1 hnone
      rcases hscan with ⟨halpha, hscan⟩ | ⟨hdigit, hscan⟩ | ⟨-, -, hscan⟩
      · obtain rfl : .letter g.char = p := by rwa [hscan, piece?, Option.some.injEq] at h
        exact .letter (by simp) hnone halpha
      · rw [hscan, piece?, Option.some.injEq, numeralWidth_eq_digitsWidth, List.map_take] at h
        subst h
        refine .numeral (List.take_prefix _ _) hnone (isNumeral_take_digitsWidth hdigit _) ?_
        intro longer hlonger hstart
        rw [List.length_take_of_le (digitsWidth_le _)]
        exact length_le_digitsWidth hlonger hstart
      · rw [hscan] at h
        cases h
  · intro h
    cases h with
    | keyword hstart hlongest =>
      have hword := Keyword.longest?_eq_some_iff.2 ⟨hstart, hlongest⟩
      rw [scan, hword]
      rfl
    | letter hstart hnone hletter =>
      have hword := Keyword.longest?_eq_none_iff.2 hnone
      obtain ⟨rfl, -⟩ := List.cons_prefix_cons.1 hstart
      rw [scan, hword]
      dsimp only
      rw [if_pos hletter]
      rfl
    | @numeral _ digits hstart hnone hnumeral hlongest =>
      have hword := Keyword.longest?_eq_none_iff.2 hnone
      have hdigit : g.char.isDigit := by
        obtain ⟨c, others, rfl, hc⟩ := hnumeral.exists_cons
        obtain ⟨rfl, -⟩ := List.cons_prefix_cons.1 hstart
        exact hc
      have hletter : ¬ g.char.isAlpha := fun halpha => not_isDigit_of_isAlpha halpha hdigit
      have hlength : digits.length = digitsWidth ((g :: rest).map Glyph.char) := by
        have hread := hlongest _ (isNumeral_take_digitsWidth hdigit _) (List.take_prefix _ _)
        rw [← List.map_cons, List.length_take_of_le (digitsWidth_le _)] at hread
        exact Nat.le_antisymm (length_le_digitsWidth hnumeral hstart) hread
      have hdigits : digits = ((g :: rest).take (numeralWidth (g :: rest))).map Glyph.char := by
        rw [numeralWidth_eq_digitsWidth, ← hlength, List.map_take]
        exact List.prefix_iff_eq_take.1 hstart
      rw [scan, hword]
      dsimp only
      rw [if_neg hletter, if_pos hdigit, piece?, ← hdigits]

/-- Where no piece stands, nothing is found. -/
theorem Lexeme.scan_eq_unknown {g : Glyph} {rest : List Glyph}
    (h : ∀ p : Piece, ¬ p.Leads ((g :: rest).map Glyph.char)) : scan g rest = .unknown := by
  have hnone : (scan g rest).piece? g rest = none := by
    rw [Option.eq_none_iff_forall_ne_some]
    intro p hp
    exact h p (piece?_scan_eq_some_iff.1 hp)
  cases hscan : scan g rest with
  | unknown => rfl
  | _ =>
    rw [hscan] at hnone
    cases hnone

end Token

/-- **A text starts with one piece at most.** -/
theorem Piece.Leads.unique {p q : Piece} {text : List Char} (hp : p.Leads text)
    (hq : q.Leads text) : p = q := by
  obtain ⟨c, rest, rfl⟩ : ∃ c rest, text = c :: rest := by
    refine List.exists_cons_of_ne_nil fun hnil => ?_
    exact hp.text_ne_nil (List.prefix_nil.1 (hnil ▸ hp.text_prefix))
  have hglyphs : (Glyph.mk c 0 [] :: rest.map fun d => ⟨d, 0, []⟩).map Glyph.char = c :: rest := by
    simp [Function.comp_def]
  rw [← hglyphs] at hp hq
  have hread := Token.Lexeme.piece?_scan_eq_some_iff.2 hp
  rw [Token.Lexeme.piece?_scan_eq_some_iff.2 hq] at hread
  exact (Option.some.inj hread).symm

namespace Token

/-! ### The token of a piece -/

/-- The token is written as this piece, behind a token of the kind `previous`. -/
def Writes (t : Token) (previous : Option Kind) : Piece → Prop
  | .keyword word => t.kind = word.kind previous ∧ t.literal = word.spelling
  | .letter c => t.kind = .letter ∧ t.literal = c.toString
  | .numeral digits =>
    (∃ x, t.kind = .number x ∧ Decimal.read? digits = some x) ∧ strip t.literal.toList = digits

/-- The piece is what the token is written with, blanks aside. -/
theorem Writes.strip_literal {t : Token} {previous : Option Kind} {p : Piece} {text : List Char}
    (h : t.Writes previous p) (hp : p.Leads text) : strip t.literal.toList = p.text := by
  cases hp with
  | keyword =>
    rw [h.2]
    exact Keyword.strip_spelling _
  | letter _ _ hletter =>
    rw [h.2]
    simp [strip, not_isBlank_of_isAlpha hletter, Piece.text]
  | numeral => exact h.2

/-- **What is read at a glyph is the piece that starts there.** -/
theorem exists_writes_of_ofLexeme {known known' : Option Variable} {previous : Option Kind}
    {g : Glyph} {rest : List Glyph} {t : Token} (hclean : ∀ x ∈ g :: rest, x.Clean)
    (h : ofLexeme known previous g rest (Lexeme.scan g rest) = .ok (t, known')) :
    ∃ p : Piece, p.Leads ((g :: rest).map Glyph.char) ∧ t.Writes previous p := by
  rcases ofLexeme_ok_cases h with
    ⟨word, hscan, rfl, -⟩ | ⟨hscan, rfl, -⟩ | ⟨width, x, hscan, hread, rfl, -⟩
  · refine ⟨.keyword word, Lexeme.piece?_scan_eq_some_iff.1 ?_, rfl, rfl⟩
    rw [hscan]
    rfl
  · refine ⟨.letter g.char, Lexeme.piece?_scan_eq_some_iff.1 ?_, rfl, rfl⟩
    rw [hscan]
    rfl
  · refine ⟨.numeral _, Lexeme.piece?_scan_eq_some_iff.1 ?_, ⟨x, rfl, hread⟩, ?_⟩
    · rw [hscan]
      rfl
    · rw [String.toList_ofList]
      exact Glyph.strip_covered fun y hy => hclean y (List.mem_of_mem_take hy)

/-- **Every piece is read.** -/
theorem exists_ofLexeme_of_leads {g : Glyph} {rest : List Glyph} {p : Piece}
    (h : p.Leads ((g :: rest).map Glyph.char)) (previous : Option Kind) :
    ∃ t known, ofLexeme none previous g rest (Lexeme.scan g rest) = .ok (t, known) := by
  have hpiece := Lexeme.piece?_scan_eq_some_iff.2 h
  cases hscan : Lexeme.scan g rest with
  | unknown =>
    rw [hscan] at hpiece
    cases hpiece
  | keyword word => exact ⟨_, _, rfl⟩
  | letter => exact ⟨_, _, rfl⟩
  | numeral width =>
    obtain ⟨x, hx⟩ := Lexeme.exists_read?_of_scan hscan
    unfold ofLexeme
    dsimp only
    rw [hx]
    exact ⟨_, _, rfl⟩

end Token

end Branchwise
