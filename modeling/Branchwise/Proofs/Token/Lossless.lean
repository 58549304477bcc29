/-
Reading loses nothing.

The tokens that are read from a text, side by side, are its characters without the blanks: each
takes the glyphs from where the one before has ended (`Cuts.exists_run`).  So what was read before a
token tells where in the text it stands, and what is left there tells which token it is: the piece
that the rest starts with (`Cuts.exists_read`).

The products that are implied come on top.  They are told from the others by their places alone, so
the tokens of a formula still say what was read (`withoutImplied_insertProducts`).
-/
import Mathlib
import Branchwise.Proofs.Token.Piece
import Branchwise.Proofs.Token.Products

namespace Branchwise

open Text (Glyph strip trim)

/-- The span covers `text`, and before it stand the characters `passed`, blanks aside. -/
def Span.CoversBehind (span : Span) (passed : List Char) (formula text : String) : Prop :=
  ∃ before after, formula = before ++ text ++ after ∧ before.utf8ByteSize = span.offset ∧
    text.utf8ByteSize = span.length ∧ strip before.toList = passed

/-- A run of glyphs covers a text behind the characters of the glyphs before it. -/
theorem Text.Glyph.coversBehind {formula : String} {xs run ys : List Glyph} {g : Glyph}
    (h : ofText formula.toList = xs ++ g :: run ++ ys) {text : String}
    (htext : covered (g :: run) = text.toList) :
    (Span.mk g.offset text.utf8ByteSize).CoversBehind (xs.map char) formula text := by
  obtain ⟨before, after, hformula, hoffset, hpassed⟩ := exists_stretch h
  refine ⟨String.ofList before, String.ofList after, ?_, ?_, rfl, ?_⟩
  · rw [htext] at hformula
    rw [← String.toList_inj, hformula]
    simp
  · rw [String.utf8ByteSize_ofList, hoffset]
  · rw [String.toList_ofList, hpassed]

namespace Token

/-! ### The characters of tokens -/

/-- The characters that the tokens are written with, blanks aside. -/
def characters (ts : List Token) : List Char :=
  ts.flatMap fun t => strip t.literal.toList

theorem characters_cons (t : Token) (ts : List Token) :
    characters (t :: ts) = strip t.literal.toList ++ characters ts :=
  List.flatMap_cons

theorem characters_append (ts us : List Token) :
    characters (ts ++ us) = characters ts ++ characters us :=
  List.flatMap_append

variable {previous : Option Kind} {g : Glyph} {rest xs zs : List Glyph} {t : Token}
  {ts before after : List Token} {known : Option Variable}

/-- A token is written with the characters of its run. -/
theorem characters_of_ofLexeme (hclean : ∀ x ∈ g :: rest, x.Clean)
    (h : ofLexeme none previous g rest (Lexeme.scan g rest) = .ok (t, known)) :
    strip t.literal.toList =
      (g :: rest.take ((Lexeme.scan g rest).width - 1)).map Glyph.char := by
  have hread : t.IsReadFrom g _ := ⟨previous, known, rest, rfl, h⟩
  have hrun : ∀ x ∈ g :: rest.take ((Lexeme.scan g rest).width - 1), x.Clean := by
    intro x hx
    rcases List.mem_cons.1 hx with rfl | hmem
    · exact hclean x List.mem_cons_self
    · exact hclean x (List.mem_cons_of_mem g (List.mem_of_mem_take hmem))
  obtain ⟨hkept, hspelled⟩ := hread.literal
  by_cases hkeeps : t.kind.keepsText = true
  · rw [hkept hkeeps, String.toList_ofList, Glyph.strip_covered hrun]
  · rw [hspelled hkeeps, strip, List.filter_eq_self, List.forall_mem_map]
    intro x hx
    simpa using (hrun x hx).char

/-- **What is cut off are the characters of the tokens.** -/
theorem Cuts.exists_run (h : Cuts previous xs ts zs) (hclean : ∀ x ∈ xs, x.Clean) :
    ∃ run, xs = run ++ zs ∧ run.map Glyph.char = characters ts := by
  induction h with
  | done => exact ⟨[], rfl, rfl⟩
  | @token previous g rest rest' t ts known ht hrest ih =>
    have hbehind : ∀ x ∈ rest.drop ((Lexeme.scan g rest).width - 1), x.Clean :=
      fun x hx => hclean x (List.mem_cons_of_mem g (List.mem_of_mem_drop hx))
    obtain ⟨run, hrun, hchars⟩ := ih hbehind
    refine ⟨g :: rest.take ((Lexeme.scan g rest).width - 1) ++ run, ?_, ?_⟩
    · rw [List.append_assoc, ← hrun, List.cons_append, List.take_append_drop]
    · rw [List.map_append, hchars, characters_cons, characters_of_ofLexeme hclean ht]

/-! ### What was not read -/

/-- The tokens without the products that are implied. -/
def withoutImplied : List Token → List Token
  | t :: u :: ts =>
    if t = impliedProduct u.offset then withoutImplied (u :: ts) else t :: withoutImplied (u :: ts)
  | ts => ts

theorem withoutImplied_cons (h : (t :: ts).Pairwise (·.offset < ·.offset))
    (previous : Option Kind) :
    withoutImplied (t :: insertProducts previous ts) =
      t :: withoutImplied (insertProducts previous ts) := by
  cases hrest : insertProducts previous ts with
  | nil => rfl
  | cons v vs => rw [withoutImplied, if_neg (ne_impliedProduct h (by rw [hrest]; rfl))]

/-- **The implied products can be told from what was read.** -/
theorem withoutImplied_insertProducts (h : ts.Pairwise (·.offset < ·.offset))
    (previous : Option Kind) : withoutImplied (insertProducts previous ts) = ts := by
  induction ts generalizing previous with
  | nil => rfl
  | cons t ts ih =>
    have hrest : withoutImplied (t :: insertProducts (some t.kind) ts) = t :: ts := by
      rw [withoutImplied_cons h, ih (List.pairwise_cons.1 h).2]
    unfold insertProducts
    split
    · rw [withoutImplied, if_pos rfl, hrest]
    · exact hrest

/-! ### A token in its formula -/

/-- The token is the piece that the formula goes on with behind the tokens `before`. -/
def IsPieceBehind (t : Token) (before : List Token) (formula : String) : Prop :=
  ∃ (p : Piece) (remaining : List Char), strip formula.toList = characters before ++ remaining ∧
    p.Leads remaining ∧ t.Writes (lastKind none before) p

/-- How a token stands in the formula that it is read from, behind the tokens `before`. -/
structure IsReadBehind (t : Token) (before : List Token) (formula : String) : Prop where
  /-- It starts at its offset, behind the characters of the tokens before it. -/
  stands : ∃ stretch, t.HasStretch formula stretch ∧
    (Span.mk t.offset stretch.utf8ByteSize).CoversBehind (characters before) formula stretch
  /-- It is the piece that stands there. -/
  piece : t.IsPieceBehind before formula
  /-- A number has all the digits that stand there, also those to its left. -/
  whole : ∀ x, t.kind = .number x → ∀ c ∈ (characters before).getLast?, ¬ c.isDigit

/-- A number is written as a numeral. -/
theorem Writes.exists_numeral {p : Piece} {x : Float} (h : t.Writes previous p)
    (hkind : t.kind = .number x) : ∃ digits, p = .numeral digits := by
  cases p with
  | keyword word =>
    have hkeeps := keepsText_keyword previous word
    rw [← h.1, hkind] at hkeeps
    cases hkeeps
  | letter c =>
    rw [h.1] at hkind
    cases hkind
  | numeral digits => exact ⟨digits, rfl⟩

/-- The token before a number does not end with a digit, or the number would have been read as a
part of it. -/
theorem IsPieceBehind.whole {formula : String} {u : Token}
    (hu : u.IsPieceBehind before formula) (ht : t.IsPieceBehind (before ++ [u]) formula)
    {x : Float} (hnumber : t.kind = .number x) :
    ∀ c ∈ (characters (before ++ [u])).getLast?, ¬ c.isDigit := by
  obtain ⟨p, remaining, hformula, hp, hwrites⟩ := hu
  obtain ⟨q, behind, hformula', hq, hwrites'⟩ := ht
  obtain ⟨digits, rfl⟩ := hwrites'.exists_numeral hnumber
  have hcharacters : characters (before ++ [u]) = characters before ++ p.text := by
    rw [characters_append, ← hwrites.strip_literal hp, characters_cons]
    simp [characters]
  have hremaining : remaining = p.text ++ behind := by
    rwa [hcharacters, hformula, List.append_assoc, List.append_cancel_left_eq] at hformula'
  rw [hremaining] at hp
  intro c hc
  rw [hcharacters, List.getLast?_append_of_ne_nil _ hp.text_ne_nil] at hc
  exact hp.not_isDigit_of_numeral hq c hc

section Formula

variable {formula : String}

theorem clean_of_ofText_eq (h : Glyph.ofText formula.toList = xs ++ zs) : ∀ x ∈ zs, x.Clean := by
  intro x hx
  have hmem : x ∈ Glyph.ofText formula.toList := h ▸ List.mem_append_right xs hx
  exact Glyph.clean_of_mem_ofText hmem

theorem Cuts.isPieceBehind (h : Cuts none (Glyph.ofText formula.toList) (before ++ t :: after) zs) :
    t.IsPieceBehind before formula := by
  obtain ⟨g, rest, known, hbefore, ht, -⟩ := h.exists_read
  obtain ⟨run, hglyphs, hrun⟩ := hbefore.exists_run fun x => Glyph.clean_of_mem_ofText
  obtain ⟨p, hp, hwrites⟩ := exists_writes_of_ofLexeme (clean_of_ofText_eq hglyphs) ht
  refine ⟨p, _, ?_, hp, hwrites⟩
  rw [← Glyph.map_char_ofText, hglyphs, List.map_append, hrun]

/-- **A token that is read is the piece of the formula that stands behind the tokens before it.** -/
theorem Cuts.isReadBehind (h : Cuts none (Glyph.ofText formula.toList) (before ++ t :: after) zs) :
    t.IsReadBehind before formula := by
  obtain ⟨g, rest, known, hbefore, ht, -⟩ := h.exists_read
  obtain ⟨run, hglyphs, hrun⟩ := hbefore.exists_run fun x => Glyph.clean_of_mem_ofText
  have hread : t.IsReadFrom g (rest.take ((Lexeme.scan g rest).width - 1)) := ⟨_, _, _, rfl, ht⟩
  rw [← List.take_append_drop ((Lexeme.scan g rest).width - 1) rest, ← List.cons_append,
    ← List.append_assoc] at hglyphs
  refine ⟨⟨_, hread.hasStretch hglyphs, ?_⟩, h.isPieceBehind, ?_⟩
  · rw [offset_of_ofLexeme ht, ← hrun]
    exact Glyph.coversBehind hglyphs String.toList_ofList.symm
  · intro x hnumber
    rcases List.eq_nil_or_concat' before with rfl | ⟨others, u, rfl⟩
    · exact nofun
    · have hpiece := h.isPieceBehind
      rw [List.append_assoc] at h
      exact h.isPieceBehind.whole hpiece hnumber

end Formula

end Token

open Token in
/-- **Reading a formula loses nothing.**  Without the implied products, the tokens are the
characters of the formula in their order, and each is the piece that stands where it starts. -/
theorem tokenize_loses_nothing {formula : String} {ts : List Token}
    (h : tokenize formula = .ok ts) :
    ∃ read, (readFrom none none (Glyph.ofText formula.toList)).mapM (·.result) = .ok read ∧
      withoutImplied ts = read ∧ insertProducts none read = ts ∧
      characters read = strip formula.toList ∧ read.Pairwise (·.offset < ·.offset) ∧
      ∀ before t after, read = before ++ t :: after → t.IsReadBehind before formula := by
  obtain ⟨read, hcuts, hone, rfl⟩ := tokenize_eq_ok_iff.1 h
  have hoffsets := hcuts.pairwise_offset (Glyph.pairwise_offset_ofTextFrom 0 [] formula.toList)
  obtain ⟨run, hglyphs, hrun⟩ := hcuts.exists_run fun x => Glyph.clean_of_mem_ofText
  refine ⟨read, mapM_readFrom_eq_ok_iff.2 ⟨hcuts, hone, nofun⟩,
    withoutImplied_insertProducts hoffsets none, rfl, ?_, hoffsets, ?_⟩
  · rw [← hrun, ← Glyph.map_char_ofText, hglyphs, List.append_nil]
  · rintro before t after rfl
    exact hcuts.isReadBehind

open Token in
/-- Two implied products, a name with a wide blank inside, and a number with a blank inside that
starts behind a bracket. -/
theorem tokenize_loses_nothing_blanks_inside :
    let formula := "2 z- l\u3000n(1 0.5 z)"
    let ts : List Token := [⟨.number (Float.ofScientific 2 false 0), "2", 0⟩, ⟨.binary, "*", 2⟩,
      ⟨.letter, "z", 2⟩, ⟨.binary, "-", 3⟩, ⟨.function1, "ln", 5⟩, ⟨.leftParen, "(", 10⟩,
      ⟨.number (Float.ofScientific 105 true 1), "1 0.5", 11⟩, ⟨.binary, "*", 17⟩,
      ⟨.letter, "z", 17⟩, ⟨.rightParen, ")", 18⟩]
    tokenize formula = .ok ts ∧
      ∃ read, (readFrom none none (Glyph.ofText formula.toList)).mapM (·.result) = .ok read ∧
        withoutImplied ts = read ∧ insertProducts none read = ts ∧
        characters read = strip formula.toList ∧ read.Pairwise (·.offset < ·.offset) ∧
        ∀ before t after, read = before ++ t :: after → t.IsReadBehind before formula := by
  intro formula ts
  have h : tokenize formula = .ok ts := by decide +kernel
  exact ⟨h, tokenize_loses_nothing h⟩

end Branchwise
