/-
Renaming letters before reading or after it.

A reader tells letters from other characters and finds the keywords; apart from that it only
compares letters with each other.  So it cannot tell a text from one in which letters have other
names, as long as no keyword loses a letter or gets one (`Renames`).  Reading a renamed text gives
the renamed steps, one for one and with the same places (`steps_rename`), also where reading ends
with an error.

Letters that no keyword contains may be exchanged.  What an exchange does to a text that has only
one of the two letters is to replace it.
-/
import Branchwise.Proofs.Token.Piece
import Branchwise.Proofs.Token.Reading

namespace Branchwise

open Text (Glyph isBlank)

/-! ### Renamings -/

/-- The function takes letters to letters, no two to the same one, and no keyword changes. -/
structure Renames (f : Char → Char) : Prop where
  injective : Function.Injective f
  keeps : ∀ c, ¬ c.isAlpha → f c = c
  keepsWord : ∀ (word : Keyword), ∀ c ∈ word.spelling.toList, f c = c

/-- A letter that no keyword contains.  The upper-case ones are free, and a few others are
(`isFreeLetter_iff`). -/
def IsFreeLetter (c : Char) : Prop :=
  c.isAlpha ∧ ∀ word ∈ Keyword.all, c ∉ word.spelling.toList

instance (c : Char) : Decidable (IsFreeLetter c) :=
  inferInstanceAs (Decidable (_ ∧ _))

theorem toNat_lt_of_isAlpha {c : Char} (h : c.isAlpha) : c.toNat < 128 := by
  simp only [Char.isAlpha, Char.isUpper, Char.isLower, Bool.or_eq_true, Bool.and_eq_true,
    decide_eq_true_eq, ge_iff_le, UInt32.le_iff_toNat_le] at h
  simp at h
  omega

theorem utf8Size_of_isAlpha {c : Char} (h : c.isAlpha) : c.utf8Size = 1 := by
  have hc := toNat_lt_of_isAlpha h
  rw [Char.utf8Size_eq_one_iff, UInt32.le_iff_toNat_le]
  exact Nat.le_of_lt_succ hc

/-- These are the letters that are left to choose from. -/
theorem isFreeLetter_iff (c : Char) :
    IsFreeLetter c ↔ c.isUpper ∨ c ∈ ['d', 'f', 'j', 'k', 'u', 'v', 'w', 'y', 'z'] := by
  have hall : ∀ n < 128, IsFreeLetter (Char.ofNat n) ↔
      (Char.ofNat n).isUpper ∨ Char.ofNat n ∈ ['d', 'f', 'j', 'k', 'u', 'v', 'w', 'y', 'z'] := by
    decide +kernel
  by_cases hc : c.toNat < 128
  · have hsame := hall c.toNat hc
    rwa [Char.ofNat_toNat] at hsame
  · have hletter : ¬ c.isAlpha := fun halpha => hc (toNat_lt_of_isAlpha halpha)
    have hlower : ['d', 'f', 'j', 'k', 'u', 'v', 'w', 'y', 'z'].all Char.isAlpha := by decide
    refine iff_of_false (fun h => hletter h.1) ?_
    rintro (hupper | hmem)
    · exact hletter (by rw [Char.isAlpha, hupper, Bool.true_or])
    · exact hletter (List.all_eq_true.1 hlower c hmem)

/-- Exchanging two letters that no keyword contains is a renaming. -/
theorem renames_swap {u v : Char} (hu : IsFreeLetter u) (hv : IsFreeLetter v) :
    Renames (Equiv.swap u v) where
  injective := (Equiv.swap u v).injective
  keeps c hc := by
    refine Equiv.swap_apply_of_ne_of_ne ?_ ?_
    · rintro rfl
      exact hc hu.1
    · rintro rfl
      exact hc hv.1
  keepsWord word c hc := by
    refine Equiv.swap_apply_of_ne_of_ne ?_ ?_
    · rintro rfl
      exact hu.2 word (Keyword.mem_all word) hc
    · rintro rfl
      exact hv.2 word (Keyword.mem_all word) hc

namespace Renames

variable {f : Char → Char} (hf : Renames f)
include hf

theorem isAlpha (c : Char) : (f c).isAlpha = c.isAlpha := by
  by_cases hc : c.isAlpha = true
  · rw [hc]
    by_contra hfc
    have hsame : f c = c := hf.injective (hf.keeps (f c) hfc)
    exact hfc (by rw [hsame, hc])
  · rw [hf.keeps c hc]

/-- What all letters have in common is kept. -/
theorem look_eq {α : Type} {look : Char → α} {x : α} (h : ∀ c : Char, c.isAlpha → look c = x)
    (c : Char) : look (f c) = look c := by
  by_cases hc : c.isAlpha = true
  · rw [h c hc, h (f c) ((hf.isAlpha c).trans hc)]
  · rw [hf.keeps c hc]

theorem isDigit (c : Char) : (f c).isDigit = c.isDigit :=
  hf.look_eq (fun _ hc => Bool.eq_false_iff.2 (not_isDigit_of_isAlpha hc)) c

theorem isBlank (c : Char) : isBlank (f c) = isBlank c :=
  hf.look_eq (fun _ hc => Bool.eq_false_iff.2 (not_isBlank_of_isAlpha hc)) c

theorem utf8Size (c : Char) : (f c).utf8Size = c.utf8Size :=
  hf.look_eq (fun _ hc => utf8Size_of_isAlpha hc) c

theorem eq_point_iff (c : Char) : f c = '.' ↔ c = '.' := by
  have hpoint : f '.' = '.' := hf.keeps '.' (by decide)
  rw [← hf.injective.eq_iff (a := c), hpoint]

end Renames

/-- The characters of a number are no letters. -/
theorem IsNumeral.not_isAlpha {digits : List Char} (h : IsNumeral digits) :
    ∀ c ∈ digits, ¬ c.isAlpha :=
  h.forall_mem (fun _ hdigit halpha => not_isDigit_of_isAlpha halpha hdigit) (by decide)

/-! ### Renamed glyphs -/

namespace Text.Glyph

/-- The glyph with another character in its place. -/
def rename (f : Char → Char) (g : Glyph) : Glyph :=
  { g with char := f g.char }

theorem map_char_rename (f : Char → Char) (glyphs : List Glyph) :
    (glyphs.map (rename f)).map char = (glyphs.map char).map f := by
  rw [List.map_map, List.map_map]
  rfl

end Text.Glyph

section Renamed

variable {f : Char → Char} (hf : Renames f)
include hf

/-- The glyphs of a renamed text stand where they stood. -/
theorem Text.Glyph.ofTextFrom_map (offset : Nat) (blanks text : List Char) :
    ofTextFrom offset blanks (text.map f) = (ofTextFrom offset blanks text).map (rename f) := by
  induction text generalizing offset blanks with
  | nil => rfl
  | cons c rest ih =>
    rw [List.map_cons, ofTextFrom, ofTextFrom, hf.isBlank, hf.utf8Size, ih, ih]
    split
    · have hblank : f c = c := hf.keeps c fun halpha => not_isBlank_of_isAlpha halpha ‹_›
      rw [hblank]
    · rfl

/-- A renamed text starts with the same keywords. -/
theorem Keyword.longest?_rename (glyphs : List Glyph) :
    longest? (glyphs.map (Glyph.rename f)) = longest? glyphs := by
  refine longest?_eq_of_matches fun word _ => ?_
  have hword : word.spelling.toList.map f = word.spelling.toList :=
    (List.map_congr_left (g := id) (hf.keepsWord word)).trans (List.map_id _)
  rw [Glyph.map_char_rename, ← hword, List.prefix_map_iff_of_injective hf.injective, hword]

namespace Token

theorem digitsWidth_map (text : List Char) : digitsWidth (text.map f) = digitsWidth text := by
  have hrun (run : List Char) :
      ((run.map f).takeWhile Char.isDigit).length = (run.takeWhile Char.isDigit).length := by
    rw [List.takeWhile_map, List.length_map]
    congr 2
    funext c
    exact hf.isDigit c
  rw [digitsWidth, digitsWidth, hrun, ← List.map_drop]
  cases text.drop (text.takeWhile Char.isDigit).length with
  | nil => rfl
  | cons mark rest => simp only [List.map_cons, hrun, hf.eq_point_iff]

theorem Lexeme.scan_rename (g : Glyph) (rest : List Glyph) :
    scan (g.rename f) (rest.map (Glyph.rename f)) = scan g rest := by
  have hlongest := Keyword.longest?_rename hf (g :: rest)
  have hwidth : numeralWidth ((g :: rest).map (Glyph.rename f)) = numeralWidth (g :: rest) := by
    rw [numeralWidth_eq_digitsWidth, numeralWidth_eq_digitsWidth, Glyph.map_char_rename,
      digitsWidth_map hf]
  have hchar : (g.rename f).char = f g.char := rfl
  rw [List.map_cons] at hlongest hwidth
  rw [scan, scan, hlongest, hwidth, hchar, hf.isAlpha, hf.isDigit]

/-- The glyphs of a number stay as they are. -/
theorem Lexeme.take_rename_of_scan {g : Glyph} {rest : List Glyph} {width : Nat}
    (h : scan g rest = .numeral width) :
    (g.rename f :: rest.map (Glyph.rename f)).take width = (g :: rest).take width := by
  rcases scan_cases g rest with
    ⟨word, -, hscan⟩ | ⟨-, ⟨-, hscan⟩ | ⟨hdigit, hscan⟩ | ⟨-, -, hscan⟩⟩
  · cases hscan.symm.trans h
  · cases hscan.symm.trans h
  · obtain rfl := Lexeme.numeral.inj (hscan.symm.trans h)
    have hnumeral := isNumeral_take_digitsWidth hdigit (rest.map Glyph.char)
    rw [← List.map_cons, ← numeralWidth_eq_digitsWidth, ← List.map_take] at hnumeral
    have hsame : ∀ x ∈ (g :: rest).take (numeralWidth (g :: rest)), x.rename f = id x := by
      intro x hx
      have hchar := hf.keeps x.char (hnumeral.not_isAlpha x.char (List.mem_map_of_mem hx))
      rw [Glyph.rename, hchar]
      rfl
    rw [← List.map_cons, ← List.map_take, List.map_congr_left hsame, List.map_id]
  · cases hscan.symm.trans h

end Token

end Renamed

/-! ### Renamed tokens and steps -/

/-- The error about the renamed characters. -/
def LexError.rename (f : Char → Char) : LexError → LexError
  | unknownCharacter char offset => .unknownCharacter (f char) offset
  | secondVariable first firstOffset second secondOffset =>
    .secondVariable (f first) firstOffset (f second) secondOffset
  | unreadableNumeral literal offset => .unreadableNumeral literal offset

namespace Token

/-- The token with the variable renamed. -/
def rename (f : Char → Char) (t : Token) : Token :=
  { t with literal := if t.kind = .letter then t.literal.map f else t.literal }

/-- The variable with its letter renamed. -/
def Variable.rename (f : Char → Char) (v : Variable) : Variable :=
  { v with letter := f v.letter }

/-- The step with its token or error renamed, and with it the letter that is known. -/
def Step.rename (f : Char → Char) (step : Step) : Step where
  result := (step.result.map (Token.rename f)).mapError (LexError.rename f)
  variableLetter := step.variableLetter.map f

variable {f : Char → Char}

theorem Step.rename_error (e : LexError) (letter : Option Char) :
    Step.rename f ⟨.error e, letter⟩ = ⟨.error (e.rename f), letter.map f⟩ :=
  rfl

theorem Step.rename_ok (t : Token) (letter : Option Char) :
    Step.rename f ⟨.ok t, letter⟩ = ⟨.ok (t.rename f), letter.map f⟩ :=
  rfl

theorem map_letter_rename (known : Option Variable) :
    (known.map (Variable.rename f)).map (·.letter) = (known.map (·.letter)).map f := by
  rw [Option.map_map, Option.map_map]
  rfl

theorem rename_of_ne_letter {t : Token} (h : t.kind ≠ .letter) : t.rename f = t := by
  rw [rename, if_neg h]

/-- A renamed token is the same to the grammar and has the same name, if it has one. -/
theorem keeps_rename (f : Char → Char) : Keeps (rename f) where
  kind _ := rfl
  literal t ht := by rw [rename_of_ne_letter fun hkind => ht (.inl hkind)]

/-- The products are implied at the same places. -/
theorem withProducts_rename (previous : Option Kind) (steps : List Step) :
    withProducts previous (steps.map (Step.rename f)) =
      (withProducts previous steps).map (Step.rename f) := by
  induction steps generalizing previous with
  | nil => rfl
  | cons step steps ih =>
    obtain ⟨result, letter⟩ := step
    rw [List.map_cons, withProducts, withProducts]
    cases result with
    | error e =>
      rw [Step.rename_error, List.map_cons, Step.rename_error, ih]
    | ok t =>
      have hvalue : (t.rename f).isValue = t.isValue := rfl
      rw [Step.rename_ok]
      dsimp only
      rw [hvalue, ih]
      split
      · rfl
      · rfl

section Reading

variable (hf : Renames f)
include hf

/-- **What is read at a renamed glyph is the renamed token.** -/
theorem ofLexeme_rename (known : Option Variable) (previous : Option Kind) (g : Glyph)
    (rest : List Glyph) :
    ofLexeme (known.map (Variable.rename f)) previous (g.rename f) (rest.map (Glyph.rename f))
        (Lexeme.scan g rest) =
      ((ofLexeme known previous g rest (Lexeme.scan g rest)).map fun read =>
        (read.1.rename f, read.2.map (Variable.rename f))).mapError (LexError.rename f) := by
  cases hscan : Lexeme.scan g rest with
  | keyword word =>
    have hkind : (Token.mk (word.kind previous) word.spelling g.offset).kind ≠ .letter :=
      kind_ne_letter_of_keyword previous word
    simp only [ofLexeme, Except.map, Except.mapError, rename_of_ne_letter hkind]
    rfl
  | letter =>
    have htoken : Token.mk .letter (g.rename f).char.toString (g.rename f).offset =
        rename f ⟨.letter, g.char.toString, g.offset⟩ := by
      simp [rename, Glyph.rename, ← String.toList_inj]
    unfold ofLexeme
    dsimp only
    rw [htoken]
    cases known with
    | none => rfl
    | some v =>
      have hsame : (f v.letter = f g.char) = (v.letter = g.char) :=
        propext hf.injective.eq_iff
      show (if f v.letter = f g.char then _ else _) = _
      simp only [hsame]
      split <;> rfl
  | numeral width =>
    unfold ofLexeme
    dsimp only
    rw [Lexeme.take_rename_of_scan hf hscan]
    cases Decimal.read? (((g :: rest).take width).map (·.char)) <;> rfl
  | unknown => rfl

/-- Reading a renamed text ends where reading the text does, and gives the renamed steps. -/
theorem readFrom_rename (known : Option Variable) (previous : Option Kind) (glyphs : List Glyph) :
    readFrom (known.map (Variable.rename f)) previous (glyphs.map (Glyph.rename f)) =
      (readFrom known previous glyphs).map (Step.rename f) := by
  fun_induction readFrom known previous glyphs with
  | case1 => rw [List.map_nil, readFrom, List.map_nil]
  | case2 known previous g rest lexeme e he =>
    rw [List.map_cons, readFrom, Lexeme.scan_rename hf, ofLexeme_rename hf, he, map_letter_rename]
    rfl
  | case3 known previous g rest lexeme t known' ht ih =>
    rw [List.map_cons, readFrom, Lexeme.scan_rename hf, ofLexeme_rename hf, ht, List.map_cons,
      Step.rename_ok, ← ih, ← map_letter_rename, List.map_drop]
    rfl

/-- **Reading a renamed text gives the renamed steps**, one for one. -/
theorem steps_rename (formula : String) :
    steps (formula.map f) = (steps formula).map (Step.rename f) := by
  rw [steps, steps, String.toList_map, Glyph.ofText, Glyph.ofTextFrom_map hf,
    ← withProducts_rename, ← readFrom_rename hf]
  rfl

end Reading

end Token

/-- The tokens of a renamed formula are the renamed tokens, and an error is the renamed error. -/
theorem tokenize_rename {f : Char → Char} (hf : Renames f) (formula : String) :
    EndAlike (fun e e' => e.rename f = e') (List.Forall₂ fun t u => t.rename f = u)
      (tokenize formula) (tokenize (formula.map f)) := by
  rw [tokenize, tokenize, Token.steps_rename hf]
  have hsteps : List.Forall₂ (fun step step' => Token.Step.rename f step = step')
      (Token.steps formula) ((Token.steps formula).map (Token.Step.rename f)) :=
    List.forall₂_map_right_iff.2 (List.forall₂_same.2 fun _ _ => rfl)
  refine EndAlike.mapM hsteps fun step step' hstep => ?_
  obtain ⟨result, letter⟩ := step
  obtain rfl := hstep
  cases result with
  | error e => exact .error rfl
  | ok t => exact .ok rfl

end Branchwise
