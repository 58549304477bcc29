/-
The first fault of a text is the error of reading it.

Without its blanks, a text goes on in pieces for as long as one starts with what is left
(`Piece.Row`).  Two things end that: a character that no piece starts with, and a letter that is not
the first letter.  Both are said of the text alone (`MeetsUnknown`, `MeetsSecond`), and reading
fails with the one that comes first, at the bytes of the formula where it stands (`ReadingEnds`).

A row of pieces and a cutting into tokens are the same walk: a piece that leads is read, and what
is read is a piece (`exists_cuts_of_row`, `Cuts.exists_row`).  What cutting leaves out, the
variable, is put back by `mapM_readFrom_eq_error_iff`: reading fails behind tokens with one variable,
where the next token cannot be read or is another letter.
-/
import Mathlib
import Branchwise.Formula
import Branchwise.Proofs.Token.Stream

namespace Branchwise

open Text (Glyph strip)

/-! ### A text in pieces -/

namespace Piece

/-- The text starts with these pieces, one behind the other, and goes on with `rest`. -/
inductive Row : List Char → List Piece → List Char → Prop
  | done {text : List Char} : Row text [] text
  | piece {p : Piece} {behind rest : List Char} {ps : List Piece} (h : p.Leads (p.text ++ behind))
      (hrest : Row behind ps rest) : Row (p.text ++ behind) (p :: ps) rest

/-- The characters of the pieces. -/
def characters (ps : List Piece) : List Char :=
  ps.flatMap text

/-- Behind pieces with one letter at most, no piece starts, and `c` stands there. -/
structure MeetsUnknown (text : List Char) (passed : List Piece) (c : Char) : Prop where
  stops : ∃ rest, Row text passed (c :: rest) ∧ ∀ p : Piece, ¬ p.Leads (c :: rest)
  oneLetter : ∀ a b, letter a ∈ passed → letter b ∈ passed → a = b

/-- Behind pieces whose only letter is `first`, the letter `second` stands. -/
structure MeetsSecond (text : List Char) (passed : List Piece) (first : Char)
    (between : List Piece) (second : Char) : Prop where
  goesOn : ∃ rest, Row text (passed ++ letter first :: between) (second :: rest) ∧
    (letter second).Leads (second :: rest)
  first_is_first : ∀ a, letter a ∉ passed
  oneLetter : ∀ a, letter a ∈ between → a = first
  other : second ≠ first

variable {text rest : List Char} {ps qs : List Piece}

/-- All letters before the second one are the first one. -/
theorem MeetsSecond.eq_first {passed between : List Piece} {first second : Char}
    (h : MeetsSecond text passed first between second) {a : Char}
    (ha : letter a ∈ passed ++ letter first :: between) : a = first := by
  rw [List.mem_append, List.mem_cons] at ha
  rcases ha with hpassed | hfirst | hbetween
  · exact absurd hpassed (h.first_is_first a)
  · exact letter.inj hfirst
  · exact h.oneLetter a hbetween

theorem Row.text_eq (h : Row text ps rest) : text = characters ps ++ rest := by
  induction h with
  | done => rfl
  | piece _ _ ih =>
    rw [characters, List.flatMap_cons, List.append_assoc, ← characters, ← ih]

theorem row_append_iff :
    Row text (ps ++ qs) rest ↔ ∃ mid, Row text ps mid ∧ Row mid qs rest := by
  refine ⟨?_, ?_⟩
  · intro h
    induction ps generalizing text with
    | nil => exact ⟨text, .done, h⟩
    | cons p ps ih =>
      cases h with
      | piece hp hrest =>
        obtain ⟨mid, hps, hqs⟩ := ih hrest
        exact ⟨mid, .piece hp hps, hqs⟩
  · rintro ⟨mid, hps, hqs⟩
    induction hps with
    | done => exact hqs
    | piece hp _ ih => exact .piece hp (ih hqs)

theorem mem_map_letter?_iff {c : Char} : some c ∈ ps.map letter? ↔ letter c ∈ ps := by
  simp [letter?_eq_some_iff]

end Piece

namespace Token

open Piece (Row MeetsUnknown MeetsSecond)

variable {previous : Option Kind} {known : Option Variable} {g : Glyph} {rest xs zs : List Glyph}
  {t : Token} {ts us : List Token} {ps : List Piece} {e : LexError}

/-! ### Pieces and tokens -/

theorem Writes.letter? {p : Piece} (h : t.Writes previous p) : t.letter? = p.letter? := by
  cases p with
  | keyword word =>
    have hkind : t.kind ≠ .letter := h.1 ▸ kind_ne_letter_of_keyword previous word
    rw [Token.letter?, if_neg hkind]
    rfl
  | letter c =>
    rw [Token.letter?, if_pos h.1, h.2]
    simp [Piece.letter?]
  | numeral digits =>
    obtain ⟨⟨x, hkind, -⟩, -⟩ := h
    rw [Token.letter?, hkind]
    rfl

/-- What is read at a glyph is the piece that starts there, and what is left stands behind it. -/
theorem exists_piece_of_ofLexeme (hclean : ∀ x ∈ g :: rest, x.Clean)
    (h : ofLexeme none previous g rest (Lexeme.scan g rest) = .ok (t, known)) :
    ∃ p : Piece, p.Leads ((g :: rest).map Glyph.char) ∧ t.Writes previous p ∧
      (g :: rest).map Glyph.char =
        p.text ++ (rest.drop ((Lexeme.scan g rest).width - 1)).map Glyph.char := by
  obtain ⟨p, hp, hwrites⟩ := exists_writes_of_ofLexeme hclean h
  refine ⟨p, hp, hwrites, ?_⟩
  rw [← hwrites.strip_literal hp, characters_of_ofLexeme hclean h, ← List.map_append,
    List.cons_append, List.take_append_drop]

/-- **A row of pieces is read piece by piece.** -/
theorem exists_cuts_of_row {text behind : List Char} (h : Row text ps behind)
    (previous : Option Kind) (hchars : xs.map Glyph.char = text) (hclean : ∀ x ∈ xs, x.Clean) :
    ∃ ts zs, Cuts previous xs ts zs ∧ zs.map Glyph.char = behind ∧
      ts.map letter? = ps.map Piece.letter? := by
  induction h generalizing previous xs with
  | done => exact ⟨[], xs, .done, hchars, rfl⟩
  | @piece p behind last ps hp hrest ih =>
    obtain ⟨g, rest, rfl⟩ : ∃ g rest, xs = g :: rest := by
      refine List.exists_cons_of_ne_nil ?_
      rintro rfl
      exact hp.text_ne_nil (List.append_eq_nil_iff.1 hchars.symm).1
    rw [← hchars] at hp
    obtain ⟨t, known, ht⟩ := exists_ofLexeme_of_leads hp previous
    obtain ⟨q, hq, hwrites, hsplit⟩ := exists_piece_of_ofLexeme hclean ht
    obtain rfl := hp.unique hq
    have hbehind := (List.append_cancel_left (hchars.symm.trans hsplit)).symm
    obtain ⟨ts, zs, hcuts, hzs, hletters⟩ := ih (some t.kind) hbehind fun x hx =>
      hclean x (List.mem_cons_of_mem g (List.mem_of_mem_drop hx))
    refine ⟨t :: ts, zs, .token ht hcuts, hzs, ?_⟩
    rw [List.map_cons, List.map_cons, hwrites.letter?, hletters]

/-- **What is read is a row of pieces.** -/
theorem Cuts.exists_row (h : Cuts previous xs ts zs) (hclean : ∀ x ∈ xs, x.Clean) :
    ∃ ps, Row (xs.map Glyph.char) ps (zs.map Glyph.char) ∧
      ts.map letter? = ps.map Piece.letter? := by
  induction h with
  | done => exact ⟨[], .done, rfl⟩
  | @token previous g rest rest' t ts known ht hrest ih =>
    obtain ⟨p, hp, hwrites, hsplit⟩ := exists_piece_of_ofLexeme hclean ht
    obtain ⟨ps, hrow, hletters⟩ := ih fun x hx =>
      hclean x (List.mem_cons_of_mem g (List.mem_of_mem_drop hx))
    refine ⟨p :: ps, ?_, by rw [List.map_cons, List.map_cons, hwrites.letter?, hletters]⟩
    rw [hsplit] at hp ⊢
    exact .piece hp hrow

/-- Where no piece is a letter, no token is. -/
theorem letter?_eq_none_of_map_eq (h : ts.map letter? = ps.map Piece.letter?)
    (hps : ∀ a, .letter a ∉ ps) (ht : t ∈ ts) : t.letter? = none := by
  cases hletter : t.letter? with
  | none => rfl
  | some a =>
    have hmem : some a ∈ ps.map Piece.letter? := by
      rw [← h, ← hletter]
      exact List.mem_map_of_mem ht
    exact absurd (Piece.mem_map_letter?_iff.1 hmem) (hps a)

/-! ### One letter -/

theorem kind_of_letter? {c : Char} (h : t.letter? = some c) : t.kind = .letter := by
  rw [letter?] at h
  split at h
  · assumption
  · cases h

/-- Letters are written as they are. -/
theorem Cuts.exists_letter? (h : Cuts previous xs ts zs) (ht : t ∈ ts)
    (hletter : t.kind = .letter) :
    ∃ c, t.letter? = some c ∧ t.literal = c.toString := by
  induction h with
  | done => cases ht
  | token hu _ ih =>
    rcases List.mem_cons.1 ht with rfl | hmem
    · exact ⟨_, letter?_of_ofLexeme hu hletter, literal_of_ofLexeme hu hletter⟩
    · exact ih hmem

/-- Tokens have one variable if their letters are one letter. -/
theorem Cuts.oneVariable_iff (h : Cuts previous xs ts zs) :
    OneVariable ts ↔ ∀ a b, some a ∈ ts.map letter? → some b ∈ ts.map letter? → a = b := by
  refine ⟨?_, ?_⟩
  · intro hone a b ha hb
    obtain ⟨t, ht, hta⟩ := List.mem_map.1 ha
    obtain ⟨u, hu, hub⟩ := List.mem_map.1 hb
    obtain ⟨c, hc, htext⟩ := h.exists_letter? ht (kind_of_letter? hta)
    obtain ⟨d, hd, htext'⟩ := h.exists_letter? hu (kind_of_letter? hub)
    have hsame := hone t ht u hu (kind_of_letter? hta) (kind_of_letter? hub)
    obtain rfl : a = c := Option.some.inj (hta.symm.trans hc)
    obtain rfl : b = d := Option.some.inj (hub.symm.trans hd)
    rw [htext, htext'] at hsame
    simpa using hsame
  · intro hsame t ht u hu hkt hku
    obtain ⟨c, hc, htext⟩ := h.exists_letter? ht hkt
    obtain ⟨d, hd, htext'⟩ := h.exists_letter? hu hku
    rw [htext, htext', hsame c d (hc ▸ List.mem_map_of_mem ht) (hd ▸ List.mem_map_of_mem hu)]

/-! ### Where reading fails -/

/-- **Reading fails where the text is no longer cut into tokens with one variable.** -/
theorem mapM_readFrom_eq_error_iff {glyphs : List Glyph} :
    (readFrom known previous glyphs).mapM (·.result) = .error e ↔
      ∃ ts g rest, Cuts previous glyphs ts (g :: rest) ∧ OneVariable ts ∧ Agrees known ts ∧
        ofLexeme (known.or (firstLetter? ts)) (lastKind previous ts) g rest (Lexeme.scan g rest) =
          .error e := by
  fun_induction readFrom known previous glyphs with
  | case1 known previous =>
    refine ⟨fun h => (by cases h), ?_⟩
    rintro ⟨ts, g, rest, hcuts, -⟩
    cases hcuts
  | case2 known previous g rest lexeme e' =>
    rename_i he
    rw [mapM_cons_eq_error_iff]
    refine ⟨?_, ?_⟩
    · rintro (⟨⟨⟩⟩ | ⟨_, ⟨⟩, -⟩)
      refine ⟨[], g, rest, .done, ?_, ?_, ?_⟩
      · simp [OneVariable]
      · simp [Agrees]
      · rwa [firstLetter?, List.findSome?_nil, Option.or_none]
    · rintro ⟨ts, g', rest', hcuts, hone, hagrees, he'⟩
      cases hcuts with
      | done =>
        rw [firstLetter?, List.findSome?_nil, Option.or_none] at he'
        obtain rfl := Except.error.inj (he.symm.trans he')
        exact .inl rfl
      | @token _ _ _ _ t us first ht _ =>
        have hagrees' : Agrees known [t] := fun v hv u hu => hagrees v hv u (by simp_all)
        have hok := ofLexeme_eq_ok_iff.2 ⟨⟨first, ht⟩, hagrees', rfl⟩
        cases he.symm.trans hok
  | case3 known previous g rest lexeme t known' ht =>
    rename_i ih
    obtain ⟨⟨first, hfirst⟩, hagrees, rfl⟩ := ofLexeme_eq_ok_iff.1 ht
    have hcons (us : List Token) : OneVariable (t :: us) ∧ Agrees known (t :: us) ↔ _ :=
      oneVariable_and_agrees_cons_iff hagrees (literal_of_ofLexeme hfirst)
    have hknown := knownAfter_or_firstLetter? hfirst known
    rw [mapM_cons_eq_error_iff, ih]
    refine ⟨?_, ?_⟩
    · rintro (⟨⟨⟩⟩ | ⟨_, -, us, g', rest', hcuts, hone, hagrees', he⟩)
      obtain ⟨hone, hagrees'⟩ := (hcons us).2 ⟨hone, hagrees'⟩
      rw [hknown] at he
      exact ⟨t :: us, g', rest', .token hfirst hcuts, hone, hagrees', he⟩
    · rintro ⟨ts, g', rest', hcuts, hone, hagrees', he⟩
      cases hcuts with
      | done =>
        rw [firstLetter?, List.findSome?_nil, Option.or_none] at he
        cases he.symm.trans ht
      | @token _ _ _ _ u us _ hu hrest =>
        obtain ⟨rfl, -⟩ := Prod.mk.inj (Except.ok.inj (hfirst.symm.trans hu))
        obtain ⟨hone, hagrees'⟩ := (hcons us).1 ⟨hone, hagrees'⟩
        rw [← hknown] at he
        exact .inr ⟨t, rfl, us, g', rest', hrest, hone, hagrees', he⟩

end Token

theorem tokenize_eq_error_iff {formula : String} {e : LexError} :
    tokenize formula = .error e ↔
      ∃ ts g rest, Token.Cuts none (Glyph.ofText formula.toList) ts (g :: rest) ∧
        Token.OneVariable ts ∧
        Token.ofLexeme (Token.firstLetter? ts) (Token.lastKind none ts) g rest
          (Token.Lexeme.scan g rest) = .error e := by
  rw [tokenize, Token.steps, Token.mapM_withProducts, map_eq_error_iff,
    Token.mapM_readFrom_eq_error_iff]
  simp [Token.Agrees]

namespace Token

open Piece (Row MeetsUnknown MeetsSecond)

variable {formula : String}

/-- A glyph covers its own bytes, behind the pieces before it. -/
theorem coversBehind_of_row {ts : List Token} {g : Glyph} {rest : List Glyph} {ps : List Piece}
    (hcuts : Cuts none (Glyph.ofText formula.toList) ts (g :: rest))
    (hrow : Row (strip formula.toList) ps ((g :: rest).map Glyph.char)) :
    (Span.ofChar g.char g.offset).CoversBehind (Piece.characters ps) formula g.char.toString := by
  obtain ⟨run, hglyphs, -⟩ := hcuts.exists_run fun x => Glyph.clean_of_mem_ofText
  have hpassed : Piece.characters ps = run.map Glyph.char := by
    have htext := hrow.text_eq
    rw [← Glyph.map_char_ofText, hglyphs, List.map_append] at htext
    exact (List.append_cancel_right htext).symm
  have hrun : Glyph.ofText formula.toList = run ++ [g] ++ rest := by
    rw [hglyphs, List.append_assoc, List.singleton_append]
  have hcovered : Glyph.covered [g] = g.char.toString.toList := by simp [Glyph.covered]
  have hcovers := Glyph.coversBehind hrun hcovered
  have hspan : Span.ofChar g.char g.offset = ⟨g.offset, g.char.toString.utf8ByteSize⟩ := by
    simp [Span.ofChar]
  rwa [hpassed, hspan]

/-- **A character that no piece starts with is the error, if no second letter comes before it.** -/
theorem tokenize_of_meetsUnknown {ps : List Piece} {c : Char}
    (h : MeetsUnknown (strip formula.toList) ps c) :
    ∃ offset, tokenize formula = .error (.unknownCharacter c offset) ∧
      (Span.ofChar c offset).CoversBehind (Piece.characters ps) formula c.toString := by
  obtain ⟨rest, hrow, hnone⟩ := h.stops
  obtain ⟨ts, zs, hcuts, hzs, hletters⟩ := exists_cuts_of_row hrow none
    (Glyph.map_char_ofText formula.toList) fun x => Glyph.clean_of_mem_ofText
  obtain ⟨g, zs, rfl, rfl, rfl⟩ := List.map_eq_cons_iff.1 hzs
  have hscan : Lexeme.scan g zs = .unknown := Lexeme.scan_eq_unknown hnone
  refine ⟨g.offset, ?_, coversBehind_of_row hcuts hrow⟩
  refine tokenize_eq_error_iff.2 ⟨ts, g, zs, hcuts, ?_, by rw [hscan]; rfl⟩
  rw [hcuts.oneVariable_iff, hletters]
  intro a b ha hb
  exact h.oneLetter a b (Piece.mem_map_letter?_iff.1 ha) (Piece.mem_map_letter?_iff.1 hb)

theorem Lexeme.scan_eq_letter {g : Glyph} {rest : List Glyph} {c : Char}
    (h : (Piece.letter c).Leads ((g :: rest).map Glyph.char)) : scan g rest = .letter := by
  have hpiece := piece?_scan_eq_some_iff.2 h
  cases hscan : scan g rest with
  | letter => rfl
  | _ =>
    rw [hscan] at hpiece
    cases hpiece

/-- The first letter is behind tokens that are no letters. -/
theorem firstLetter?_append_cons {ts us : List Token} {t : Token} {c : Char}
    (hts : ∀ u ∈ ts, u.letter? = none) (ht : t.letter? = some c) :
    firstLetter? (ts ++ t :: us) = some ⟨c, t.offset⟩ := by
  have hnone : firstLetter? ts = none := by
    rw [firstLetter?, List.findSome?_eq_none_iff]
    intro u hu
    rw [hts u hu]
    rfl
  rw [firstLetter?, List.findSome?_append, ← firstLetter?, hnone, Option.none_or,
    List.findSome?_cons, ht]
  rfl

/-- **A letter that is not the first one is the error, if it comes before anything that cannot be
read.** -/
theorem tokenize_of_meetsSecond {passed between : List Piece} {first second : Char}
    (h : MeetsSecond (strip formula.toList) passed first between second) :
    ∃ firstOffset secondOffset,
      tokenize formula = .error (.secondVariable first firstOffset second secondOffset) ∧
        (Span.ofChar first firstOffset).CoversBehind (Piece.characters passed) formula
          first.toString ∧
        (Span.ofChar second secondOffset).CoversBehind
          (Piece.characters (passed ++ .letter first :: between)) formula second.toString := by
  obtain ⟨rest, hrow, hsecond⟩ := h.goesOn
  obtain ⟨mid, hpassed, hbetween⟩ := Piece.row_append_iff.1 hrow
  obtain ⟨ts, ys, hcuts, rfl, hletters⟩ := exists_cuts_of_row hpassed none
    (Glyph.map_char_ofText formula.toList) fun x => Glyph.clean_of_mem_ofText
  obtain ⟨run, hglyphs, -⟩ := hcuts.exists_run fun x => Glyph.clean_of_mem_ofText
  obtain ⟨us, zs, hcuts', hzs, hletters'⟩ :=
    exists_cuts_of_row hbetween (lastKind none ts) rfl (clean_of_ofText_eq hglyphs)
  obtain ⟨g', zs, rfl, rfl, rfl⟩ := List.map_eq_cons_iff.1 hzs
  obtain ⟨t, us, rfl, ht, hus⟩ := List.map_eq_cons_iff.1 hletters'
  cases hcuts' with
  | @token _ g rest' _ _ _ known htoken hcuts' =>
    have hfirst : g.char = first := (List.cons.inj hbetween.text_eq).1
    have hall := hcuts.append (.token htoken hcuts')
    have hmap : (ts ++ t :: us).map letter? = (passed ++ .letter first :: between).map
        Piece.letter? := by
      rw [List.map_append, List.map_cons, List.map_append, List.map_cons, hletters, ht, hus]
    have hvariable : firstLetter? (ts ++ t :: us) = some ⟨first, g.offset⟩ := by
      rw [← offset_of_ofLexeme htoken]
      exact firstLetter?_append_cons
        (fun u hu => letter?_eq_none_of_map_eq hletters h.first_is_first hu) ht
    refine ⟨g.offset, g'.offset, ?_, ?_, coversBehind_of_row hall hrow⟩
    · refine tokenize_eq_error_iff.2 ⟨_, g', zs, hall, ?_, ?_⟩
      · rw [hall.oneVariable_iff, hmap]
        intro a b ha hb
        have hfirst := h.eq_first (Piece.mem_map_letter?_iff.1 ha)
        rw [hfirst, h.eq_first (Piece.mem_map_letter?_iff.1 hb)]
      · rw [hvariable, Lexeme.scan_eq_letter hsecond]
        exact if_neg h.other.symm
    · rw [← hfirst]
      exact coversBehind_of_row hcuts hpassed

theorem exists_of_firstLetter?_eq_some {ts : List Token} {v : Variable}
    (h : firstLetter? ts = some v) :
    ∃ before t after, ts = before ++ t :: after ∧ (∀ u ∈ before, u.letter? = none) ∧
      t.letter? = some v.letter := by
  obtain ⟨before, t, after, rfl, ht, hbefore⟩ := List.findSome?_eq_some_iff.1 h
  obtain ⟨letter, hletter, rfl⟩ := Option.map_eq_some_iff.1 ht
  exact ⟨before, t, after, rfl, fun u hu => Option.map_eq_none_iff.1 (hbefore u hu), hletter⟩

/-- Every error is about one of the two faults. -/
theorem meets_of_tokenize_eq_error {e : LexError} (h : tokenize formula = .error e) :
    (∃ passed c, MeetsUnknown (strip formula.toList) passed c) ∨
      ∃ passed first between second,
        MeetsSecond (strip formula.toList) passed first between second := by
  obtain ⟨ts, g, rest, hcuts, hone, he⟩ := tokenize_eq_error_iff.1 h
  obtain ⟨ps, hrow, hletters⟩ := hcuts.exists_row fun x => Glyph.clean_of_mem_ofText
  rw [Glyph.map_char_ofText, List.map_cons] at hrow
  rw [hcuts.oneVariable_iff, hletters] at hone
  simp only [Piece.mem_map_letter?_iff] at hone
  rcases ofLexeme_error_cases he with
    ⟨hscan, -⟩ | ⟨hscan, v, hv, hne, -⟩ | ⟨width, -, -, rfl⟩
  · refine .inl ⟨ps, g.char, ⟨_, hrow, ?_⟩, hone⟩
    intro p hp
    have hpiece := Lexeme.piece?_scan_eq_some_iff.2 hp
    rw [hscan] at hpiece
    cases hpiece
  · obtain ⟨before, t, after, rfl, hbefore, ht⟩ := exists_of_firstLetter?_eq_some hv
    rw [List.map_append, List.map_cons, ht] at hletters
    obtain ⟨passed, qs, rfl, hpassed, hqs⟩ := List.map_eq_append_iff.1 hletters.symm
    obtain ⟨p, between, rfl, hp, -⟩ := List.map_eq_cons_iff.1 hqs
    obtain rfl := Piece.letter?_eq_some_iff.1 hp
    refine .inr ⟨passed, v.letter, between, g.char, ⟨_, hrow, ?_⟩, ?_, ?_, hne.symm⟩
    · exact Lexeme.piece?_scan_eq_some_iff.1 (by rw [hscan]; rfl)
    · intro a ha
      have hmem := Piece.mem_map_letter?_iff.2 ha
      rw [hpassed] at hmem
      obtain ⟨u, hu, hua⟩ := List.mem_map.1 hmem
      rw [hbefore u hu] at hua
      cases hua
    · intro a ha
      exact hone a v.letter (by simp [ha]) (by simp)
  · exact absurd h (tokenize_ne_unreadableNumeral formula _ _)

/-- Where there are letters, they are the first letter. -/
theorem Cuts.exists_firstLetter? {previous : Option Kind} {xs zs : List Glyph} {ts : List Token}
    {t : Token} (h : Cuts previous xs ts zs) (hone : OneVariable ts) (ht : t ∈ ts)
    (hletter : t.kind = .letter) :
    ∃ v, firstLetter? ts = some v ∧ t.literal = v.letter.toString := by
  obtain ⟨c, hc, -⟩ := h.exists_letter? ht hletter
  cases hfirst : firstLetter? ts with
  | none =>
    have hnone := List.findSome?_eq_none_iff.1 hfirst t ht
    rw [hc] at hnone
    cases hnone
  | some v =>
    obtain ⟨before, u, after, rfl, -, hu⟩ := exists_of_firstLetter?_eq_some hfirst
    have hmem : u ∈ before ++ u :: after := by simp
    obtain ⟨d, hd, hliteral⟩ := h.exists_letter? hmem (kind_of_letter? hu)
    obtain rfl : v.letter = d := Option.some.inj (hu.symm.trans hd)
    exact ⟨v, rfl, (hone t ht u hmem hletter (kind_of_letter? hu)).trans hliteral⟩

/-- How asking for the tokens of a formula one by one ends, if it ends with the reader `last`. -/
structure ReadingEnds (formula : String) (last : Reader) : Prop where
  /-- With the first character that nothing starts with, if no second letter comes before it. -/
  unknown : ∀ passed c, MeetsUnknown (strip formula.toList) passed c →
    ∃ span, tokenize formula = .error (.unknownCharacter c span.offset) ∧
      (FormulaError.lex (.unknownCharacter c span.offset)).labels formula =
        [⟨span, "this character"⟩] ∧
      span.CoversBehind (Piece.characters passed) formula c.toString
  /-- With the first letter that is not the first one, if all before it can be read. -/
  second : ∀ passed first between second,
    MeetsSecond (strip formula.toList) passed first between second →
    ∃ firstSpan secondSpan,
      tokenize formula =
        .error (.secondVariable first firstSpan.offset second secondSpan.offset) ∧
      (FormulaError.lex
          (.secondVariable first firstSpan.offset second secondSpan.offset)).labels formula =
        [⟨firstSpan, "first variable"⟩, ⟨secondSpan, "second variable"⟩] ∧
      firstSpan.CoversBehind (Piece.characters passed) formula first.toString ∧
      secondSpan.CoversBehind (Piece.characters (passed ++ .letter first :: between)) formula
        second.toString
  /-- With all of the text read, if there is no fault.  Then all letters are the variable. -/
  accepted : (∀ passed c, ¬ MeetsUnknown (strip formula.toList) passed c) →
    (∀ passed first between second,
      ¬ MeetsSecond (strip formula.toList) passed first between second) →
    ∃ ts, tokenize formula = .ok ts ∧ ∀ t ∈ ts, t.kind = .letter →
      ∃ c, last.variableLetter = some c ∧ t.literal = c.toString
  /-- An error is the last that is given. -/
  error_last : ∀ before step after e, steps formula = before ++ step :: after →
    step.result = .error e → after = []
  /-- However often the reader is asked again, it gives nothing. -/
  done : ∀ n, ((fun r : Reader => r.next.2)^[n] last).next.1 = none

/-- **Reading fails with the first fault of the text, at the bytes where it stands, and is over
then; without a fault it succeeds, with one variable.** -/
theorem first_fault_ends_reading (formula : String) :
    ∃ read last, Reader.Run (.ofText formula.toList) read (steps formula) last ∧
      ReadingEnds formula last := by
  obtain ⟨last, hrun, hlast⟩ := Reader.exists_run_readFrom none none (Glyph.ofText formula.toList)
  refine ⟨_, last, hrun, ?_, ?_, ?_, ?_, hrun.next_iterate⟩
  · intro passed c h
    obtain ⟨offset, herror, hcovers⟩ := tokenize_of_meetsUnknown h
    exact ⟨Span.ofChar c offset, herror, rfl, hcovers⟩
  · intro passed first between second h
    obtain ⟨offset, offset', herror, hfirst, hsecond⟩ := tokenize_of_meetsSecond h
    exact ⟨Span.ofChar first offset, Span.ofChar second offset', herror, rfl, hfirst, hsecond⟩
  · intro hunknown hsecond
    cases htokens : tokenize formula with
    | error e =>
      rcases meets_of_tokenize_eq_error htokens with ⟨_, _, h⟩ | ⟨_, _, _, _, h⟩
      · exact absurd h (hunknown _ _)
      · exact absurd h (hsecond _ _ _ _)
    | ok ts =>
      obtain ⟨us, hcuts, hone, rfl⟩ := tokenize_eq_ok_iff.1 htokens
      have hread : (readFrom none none (Glyph.ofText formula.toList)).mapM (·.result) = .ok us :=
        mapM_readFrom_eq_ok_iff.2 ⟨hcuts, hone, nofun⟩
      rw [given_of_mapM_eq_ok hread, Option.none_or] at hlast
      refine ⟨_, rfl, ?_⟩
      intro t ht hletter
      have hmem : t ∈ us := mem_of_mem_insertProducts ht (by rw [hletter]; exact nofun)
      obtain ⟨v, hv, hliteral⟩ := hcuts.exists_firstLetter? hone hmem hletter
      exact ⟨v.letter, by rw [Reader.variableLetter, hlast, hv]; rfl, hliteral⟩
  · intro before step after e hsteps he
    exact hrun.eq_nil_of_error hsteps he

/-- The second letter is met before the character that nothing starts with. -/
example : tokenize "cos z\u3000* w §" = .error (.secondVariable 'z' 4 'w' 10) := by
  cbv

end Token

end Branchwise
