/-
Reading goes by characters.

Which word starts at a glyph depends on the characters from there on.  Neither the place of a
glyph nor the blanks before it are asked for; they only reach the token, as its offset and inside
the literal of a number.  `Token.bare` is the token without them, and two runs of glyphs with the
same characters start with the same bare token or with errors about the same characters.
-/
import Branchwise.Proofs.Expr.Relabel
import Branchwise.Proofs.Failure
import Branchwise.Token.Lexer

namespace Branchwise

open Text (Glyph isBlank strip)

/-! ### Glyphs of a text -/

namespace Text.Glyph

/-- What every glyph of a text is: no blank, with nothing but blanks before it. -/
structure Clean (g : Glyph) : Prop where
  char : ¬ isBlank g.char
  blanks : ∀ c ∈ g.blanksBefore, isBlank c

theorem clean_of_mem_ofTextFrom {offset : Nat} {blanks text : List Char} {g : Glyph}
    (hblanks : ∀ c ∈ blanks, isBlank c) (hg : g ∈ ofTextFrom offset blanks text) : g.Clean := by
  induction text generalizing offset blanks with
  | nil => simp [ofTextFrom] at hg
  | cons c rest ih =>
    rw [ofTextFrom] at hg
    split at hg
    · refine ih (fun b hb => ?_) hg
      rcases List.mem_append.1 hb with hb | hb
      · exact hblanks b hb
      · rwa [List.mem_singleton.1 hb]
    · rcases List.mem_cons.1 hg with rfl | hg
      · exact ⟨‹_›, hblanks⟩
      · exact ih (by simp) hg

theorem clean_of_mem_ofText {text : List Char} {g : Glyph} (hg : g ∈ ofText text) : g.Clean :=
  clean_of_mem_ofTextFrom (by simp) hg

theorem strip_flatMap {run : List Glyph} (h : ∀ g ∈ run, g.Clean) :
    strip (run.flatMap fun g => g.blanksBefore ++ [g.char]) = run.map char := by
  induction run with
  | nil => rfl
  | cons g rest ih =>
    have hg := h g (by simp)
    have hblanks : strip g.blanksBefore = [] := by
      simpa [strip] using hg.blanks
    have hrest := ih fun g' hg' => h g' (by simp [hg'])
    simp only [strip] at hblanks hrest ⊢
    simp [hblanks, hrest, hg.char]

/-- The text that a run covers has the run's characters besides blanks. -/
theorem strip_covered {run : List Glyph} (h : ∀ g ∈ run, g.Clean) :
    strip (covered run) = run.map char := by
  cases run with
  | nil => rfl
  | cons g rest =>
    have hg := h g (by simp)
    have hrest := strip_flatMap fun g' hg' => h g' (List.mem_cons_of_mem g hg')
    simp only [strip] at hrest ⊢
    simp [covered, hrest, hg.char]

end Text.Glyph

/-! ### What starts at a glyph -/

theorem Keyword.longest?_congr {xs ys : List Glyph}
    (h : xs.map Glyph.char = ys.map Glyph.char) : longest? xs = longest? ys := by
  simp only [longest?, Glyph.spells_eq_isPrefixOf, h]

/-- Errors about the same characters, wherever they stand. -/
inductive LexError.Alike : LexError → LexError → Prop
  | unknownCharacter (c : Char) (offset offset' : Nat) :
      Alike (.unknownCharacter c offset) (.unknownCharacter c offset')
  | secondVariable (first second : Char) (firstOffset firstOffset' offset offset' : Nat) :
      Alike (.secondVariable first firstOffset second offset)
        (.secondVariable first firstOffset' second offset')
  | unreadableNumeral {literal literal' : String} (offset offset' : Nat)
      (h : strip literal.toList = strip literal'.toList) :
      Alike (.unreadableNumeral literal offset) (.unreadableNumeral literal' offset')

namespace Token

/-- How many characters a number at the start of the text takes. -/
def digitsWidth (text : List Char) : Nat :=
  let whole := (text.takeWhile Char.isDigit).length
  match text.drop whole with
  | [] => whole
  | mark :: rest =>
    let fraction := (rest.takeWhile Char.isDigit).length
    if mark = '.' && fraction != 0 then whole + 1 + fraction else whole

theorem length_takeWhile_map (glyphs : List Glyph) :
    ((glyphs.map Glyph.char).takeWhile Char.isDigit).length =
      (glyphs.takeWhile (·.char.isDigit)).length := by
  rw [List.takeWhile_map, List.length_map]
  rfl

theorem numeralWidth_eq_digitsWidth (glyphs : List Glyph) :
    numeralWidth glyphs = digitsWidth (glyphs.map Glyph.char) := by
  rw [numeralWidth, digitsWidth, length_takeWhile_map, ← List.map_drop]
  cases glyphs.drop (glyphs.takeWhile (·.char.isDigit)).length with
  | nil => rfl
  | cons mark rest => simp only [List.map_cons, length_takeWhile_map]

theorem Lexeme.scan_congr {g g' : Glyph} {rest rest' : List Glyph}
    (h : (g :: rest).map Glyph.char = (g' :: rest').map Glyph.char) :
    scan g rest = scan g' rest' := by
  have hchar : g.char = g'.char := (List.cons.inj h).1
  rw [scan, scan, Keyword.longest?_congr h, numeralWidth_eq_digitsWidth,
    numeralWidth_eq_digitsWidth, h, hchar]

/-! ### What can come of a glyph -/

/-- All that scanning can find. -/
theorem Lexeme.scan_cases (g : Glyph) (rest : List Glyph) :
    (∃ word, Keyword.longest? (g :: rest) = some word ∧ scan g rest = .keyword word) ∨
      Keyword.longest? (g :: rest) = none ∧
        (g.char.isAlpha ∧ scan g rest = .letter ∨
          g.char.isDigit ∧ scan g rest = .numeral (numeralWidth (g :: rest)) ∨
          ¬ g.char.isAlpha ∧ ¬ g.char.isDigit ∧ scan g rest = .unknown) := by
  unfold scan
  cases Keyword.longest? (g :: rest) with
  | some word => exact .inl ⟨word, rfl, rfl⟩
  | none =>
    dsimp only
    by_cases halpha : g.char.isAlpha = true
    · rw [if_pos halpha]
      exact .inr ⟨rfl, .inl ⟨halpha, rfl⟩⟩
    · rw [if_neg halpha]
      by_cases hdigit : g.char.isDigit = true
      · rw [if_pos hdigit]
        exact .inr ⟨rfl, .inr (.inl ⟨hdigit, rfl⟩)⟩
      · rw [if_neg hdigit]
        exact .inr ⟨rfl, .inr (.inr ⟨halpha, hdigit, rfl⟩)⟩

/-- All that a token at `g` can be, and what is known of the variable behind it. -/
theorem ofLexeme_ok_cases {known known' : Option Variable} {previous : Option Kind} {g : Glyph}
    {rest : List Glyph} {lexeme : Lexeme} {t : Token}
    (h : ofLexeme known previous g rest lexeme = .ok (t, known')) :
    (∃ word, lexeme = .keyword word ∧ t = ⟨word.kind previous, word.spelling, g.offset⟩ ∧
        known' = known) ∨
      (lexeme = .letter ∧ t = ⟨.letter, g.char.toString, g.offset⟩ ∧
        (∀ v ∈ known, v.letter = g.char) ∧ known' = known.or (some ⟨g.char, g.offset⟩)) ∨
      ∃ width x, lexeme = .numeral width ∧
        Decimal.read? (((g :: rest).take width).map (·.char)) = some x ∧
        t = ⟨.number x, String.ofList (Glyph.covered ((g :: rest).take width)), g.offset⟩ ∧
        known' = known := by
  cases lexeme with
  | keyword word =>
    obtain ⟨rfl, rfl⟩ := Prod.mk.inj (Except.ok.inj h)
    exact .inl ⟨word, rfl, rfl, rfl⟩
  | letter =>
    cases known with
    | none =>
      obtain ⟨rfl, rfl⟩ := Prod.mk.inj (Except.ok.inj h)
      exact .inr (.inl ⟨rfl, rfl, nofun, rfl⟩)
    | some v =>
      by_cases hv : v.letter = g.char
      · simp only [ofLexeme, if_pos hv] at h
        obtain ⟨rfl, rfl⟩ := Prod.mk.inj (Except.ok.inj h)
        exact .inr (.inl ⟨rfl, rfl, by simpa using hv, rfl⟩)
      · simp only [ofLexeme, if_neg hv] at h
        cases h
  | numeral width =>
    cases hread : Decimal.read? (((g :: rest).take width).map (·.char)) with
    | some x =>
      simp only [ofLexeme, hread] at h
      obtain ⟨rfl, rfl⟩ := Prod.mk.inj (Except.ok.inj h)
      exact .inr (.inr ⟨width, x, rfl, hread, rfl, rfl⟩)
    | none =>
      simp only [ofLexeme, hread] at h
      cases h
  | unknown => cases h

/-- All that can be wrong at `g`. -/
theorem ofLexeme_error_cases {known : Option Variable} {previous : Option Kind} {g : Glyph}
    {rest : List Glyph} {lexeme : Lexeme} {e : LexError}
    (h : ofLexeme known previous g rest lexeme = .error e) :
    (lexeme = .unknown ∧ e = .unknownCharacter g.char g.offset) ∨
      (lexeme = .letter ∧ ∃ v ∈ known, v.letter ≠ g.char ∧
        e = .secondVariable v.letter v.offset g.char g.offset) ∨
      ∃ width, lexeme = .numeral width ∧
        Decimal.read? (((g :: rest).take width).map (·.char)) = none ∧
        e = .unreadableNumeral (String.ofList (Glyph.covered ((g :: rest).take width))) g.offset := by
  cases lexeme with
  | keyword word => cases h
  | letter =>
    cases known with
    | none => cases h
    | some v =>
      by_cases hv : v.letter = g.char
      · simp only [ofLexeme, if_pos hv] at h
        cases h
      · simp only [ofLexeme, if_neg hv] at h
        exact .inr (.inl ⟨rfl, v, rfl, hv, (Except.error.inj h).symm⟩)
  | numeral width =>
    cases hread : Decimal.read? (((g :: rest).take width).map (·.char)) with
    | some x =>
      simp only [ofLexeme, hread] at h
      cases h
    | none =>
      simp only [ofLexeme, hread] at h
      exact .inr (.inr ⟨width, rfl, hread, (Except.error.inj h).symm⟩)
  | unknown => exact .inl ⟨rfl, (Except.error.inj h).symm⟩

/-! ### Bare tokens -/

/-- The token without its place and without blanks inside a number. -/
def bare (t : Token) : Token :=
  match t.kind with
  | .number _ => ⟨t.kind, String.ofList (strip t.literal.toList), 0⟩
  | _ => ⟨t.kind, t.literal, 0⟩

theorem keeps_bare : Keeps bare where
  kind t := by
    unfold bare
    split <;> rfl
  literal t ht := by
    unfold bare
    split
    · exact absurd (.inr ⟨_, ‹_›⟩) ht
    · rfl

theorem kind_eq_of_bare_eq {t u : Token} (h : t.bare = u.bare) : t.kind = u.kind := by
  rw [← keeps_bare.kind t, h, keeps_bare.kind]

/-- **The token at a glyph goes by the characters from there on, and so does an error there.** -/
theorem ofLexeme_alike {known known' : Option Variable} {previous : Option Kind} {g g' : Glyph}
    {rest rest' : List Glyph} (hknown : known.map (·.letter) = known'.map (·.letter))
    (hchars : (g :: rest).map Glyph.char = (g' :: rest').map Glyph.char)
    (hclean : ∀ x ∈ g :: rest, x.Clean) (hclean' : ∀ x ∈ g' :: rest', x.Clean) (lexeme : Lexeme) :
    EndAlike LexError.Alike
      (fun read read' => read.1.bare = read'.1.bare ∧
        read.2.map (·.letter) = read'.2.map (·.letter))
      (ofLexeme known previous g rest lexeme) (ofLexeme known' previous g' rest' lexeme) := by
  have hchar : g.char = g'.char := (List.cons.inj hchars).1
  cases lexeme with
  | keyword word => exact .ok ⟨rfl, hknown⟩
  | letter =>
    unfold ofLexeme
    dsimp only
    cases known with
    | none =>
      cases known' with
      | none => exact .ok ⟨by rw [hchar]; rfl, congrArg some hchar⟩
      | some v' => cases hknown
    | some v =>
      cases known' with
      | none => cases hknown
      | some v' =>
        have hletter : v.letter = v'.letter := Option.some.inj hknown
        dsimp only
        rw [hletter, hchar]
        split
        · exact .ok ⟨rfl, hknown⟩
        · exact .error (.secondVariable _ _ _ _ _ _)
  | numeral width =>
    have hrun : ((g :: rest).take width).map Glyph.char =
        ((g' :: rest').take width).map Glyph.char := by
      rw [List.map_take, List.map_take, hchars]
    have hstrip : strip (Glyph.covered ((g :: rest).take width)) = _ :=
      Glyph.strip_covered fun x hx => hclean x (List.mem_of_mem_take hx)
    have hstrip' : strip (Glyph.covered ((g' :: rest').take width)) = _ :=
      Glyph.strip_covered fun x hx => hclean' x (List.mem_of_mem_take hx)
    simp only [ofLexeme, hrun]
    cases Decimal.read? (((g' :: rest').take width).map Glyph.char) with
    | some x =>
      refine .ok ⟨?_, hknown⟩
      simp only [bare, String.toList_ofList, hstrip, hstrip', hrun]
    | none =>
      refine .error (.unreadableNumeral _ _ ?_)
      rw [String.toList_ofList, String.toList_ofList, hstrip, hstrip', hrun]
  | unknown =>
    unfold ofLexeme
    rw [hchar]
    exact .error (.unknownCharacter _ _ _)

end Token

end Branchwise
