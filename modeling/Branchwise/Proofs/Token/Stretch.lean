/-
The stretch of the text that a token is read from.

A text is its glyphs, each with the blanks before it, and a glyph keeps the byte at which it starts.
So a run of glyphs covers one stretch of the text, from the first character of the run to the last,
and blanks stand in it only between the two (`Glyph.exists_stretch`).  Reading takes such a run for
each token (`Cuts.exists_run_of_mem`).

The literal of a number or a letter is the stretch as it is written.  A keyword has its own spelling
for a literal, which is the stretch without its blanks: the token does not tell how long its stretch
is.  So its span, as long as the literal, shows it only if it has no blanks inside
(`Token.HasStretch.shows_span_iff`).
-/
import Mathlib.Data.List.DropRight
import Mathlib.Data.String.Basic
import Branchwise.Proofs.Token.Places

namespace Branchwise

open String (utf8Len utf8Len_append utf8Len_cons utf8Len_nil utf8Len_toList)
open Text (Glyph isBlank strip trim)

/-! ### Stretches of a formula -/

/-- The bytes of the span are those of `text`, which stands there in the formula.  In particular the
span lies within the formula and has whole characters. -/
def Span.Covers (span : Span) (formula text : String) : Prop :=
  ∃ before after, formula = before ++ text ++ after ∧ before.utf8ByteSize = span.offset ∧
    text.utf8ByteSize = span.length

/-- What the span covers reads as the token, blanks aside. -/
def Span.Shows (span : Span) (formula : String) (t : Token) : Prop :=
  ∃ text, span.Covers formula text ∧ strip text.toList = strip t.literal.toList

theorem Span.Covers.le_utf8ByteSize {span : Span} {formula text : String}
    (h : span.Covers formula text) : span.offset + span.length ≤ formula.utf8ByteSize := by
  obtain ⟨before, after, rfl, hbefore, htext⟩ := h
  rw [String.utf8ByteSize_append, String.utf8ByteSize_append]
  omega

/-- A span that covers a text ends where a character ends. -/
theorem Span.Covers.exists_take {span : Span} {formula text : String}
    (h : span.Covers formula text) :
    ∃ n, utf8Len (formula.toList.take n) = span.offset + span.length := by
  obtain ⟨before, after, rfl, hbefore, htext⟩ := h
  have hlist : (before ++ text ++ after).toList = (before ++ text).toList ++ after.toList :=
    String.toList_append
  refine ⟨(before ++ text).toList.length, ?_⟩
  rw [hlist, List.take_left' rfl, utf8Len_toList, String.utf8ByteSize_append, hbefore, htext]

theorem prefix_of_utf8Len_le {text xs ys : List Char} (hxs : xs <+: text) (hys : ys <+: text)
    (hle : utf8Len xs ≤ utf8Len ys) : xs <+: ys := by
  rcases List.prefix_or_prefix_of_prefix hxs hys with hshort | ⟨zs, rfl⟩
  · exact hshort
  · have hnone : utf8Len zs = 0 := by
      rw [utf8Len_append] at hle
      omega
    simp [String.utf8Len_eq_zero.1 hnone]

/-- Of two texts that start at the same byte, the shorter is the beginning of the longer. -/
theorem Span.Covers.prefix_of_le {offset length length' : Nat} {formula text text' : String}
    (h : (Span.mk offset length).Covers formula text)
    (h' : (Span.mk offset length').Covers formula text') (hle : length ≤ length') :
    text.toList <+: text'.toList := by
  obtain ⟨before, after, hformula, hbefore, htext⟩ := h
  obtain ⟨before', after', hformula', hbefore', htext'⟩ := h'
  have hsplit : before.toList ++ (text.toList ++ after.toList) = formula.toList := by
    simp [hformula]
  have hsplit' : before'.toList ++ (text'.toList ++ after'.toList) = formula.toList := by
    simp [hformula']
  rw [← utf8Len_toList] at hbefore hbefore' htext htext'
  have hsame : before.toList = before'.toList := by
    have hlength : utf8Len before.toList = utf8Len before'.toList := hbefore.trans hbefore'.symm
    have hshort := prefix_of_utf8Len_le ⟨_, hsplit⟩ ⟨_, hsplit'⟩ (Nat.le_of_eq hlength)
    have hlong := prefix_of_utf8Len_le ⟨_, hsplit'⟩ ⟨_, hsplit⟩ (Nat.le_of_eq hlength.symm)
    exact hshort.eq_of_length_le hlong.length_le
  rw [← hsplit', hsame, List.append_cancel_left_eq] at hsplit
  refine prefix_of_utf8Len_le ⟨_, hsplit⟩ ⟨_, rfl⟩ ?_
  rw [htext, htext']
  exact hle

/-- A text without blanks at its ends does not end with one. -/
theorem Text.not_isBlank_of_trim_eq {init : List Char} {last : Char}
    (h : trim (init ++ [last]) = init ++ [last]) : ¬ isBlank last := by
  have hne : trim (init ++ [last]) ≠ [] := by
    rw [h]
    exact List.concat_ne_nil last init
  have hlast : ¬ isBlank ((trim (init ++ [last])).getLast hne) :=
    List.rdropWhile_last_not isBlank _ hne
  simpa only [h, List.getLast_append_singleton] using hlast

/-- The bytes of a text are those of its blanks and those of what is left without them. -/
theorem Text.utf8Len_strip_add (text : List Char) :
    utf8Len (strip text) + utf8Len (text.filter isBlank) = utf8Len text := by
  induction text with
  | nil => rfl
  | cons c rest ih =>
    unfold strip at ih ⊢
    by_cases hc : isBlank c = true
    · simp [hc]
      omega
    · simp [hc]
      omega

namespace Text.Glyph

/-- The glyphs, each with the blanks before it. -/
def written (glyphs : List Glyph) : List Char :=
  glyphs.flatMap fun g => g.blanksBefore ++ [g.char]

theorem written_cons (g : Glyph) (rest : List Glyph) :
    written (g :: rest) = g.blanksBefore ++ g.char :: written rest := by
  simp [written]

theorem written_append (xs ys : List Glyph) : written (xs ++ ys) = written xs ++ written ys :=
  List.flatMap_append

/-- A text is its glyphs with the blanks before them, and then at most blanks. -/
theorem exists_eq_written_append (offset : Nat) (blanks text : List Char) :
    ∃ trailing, blanks ++ text = written (ofTextFrom offset blanks text) ++ trailing := by
  induction text generalizing offset blanks with
  | nil => exact ⟨blanks, by simp [ofTextFrom, written]⟩
  | cons c rest ih =>
    unfold ofTextFrom
    by_cases hc : isBlank c = true
    · rw [if_pos hc]
      obtain ⟨trailing, htrailing⟩ := ih (offset + c.utf8Size) (blanks ++ [c])
      exact ⟨trailing, by rw [← htrailing]; simp⟩
    · rw [if_neg hc]
      obtain ⟨trailing, htrailing⟩ := ih (offset + c.utf8Size) []
      rw [List.nil_append] at htrailing
      refine ⟨trailing, ?_⟩
      rw [written_cons, List.append_assoc, List.cons_append, ← htrailing]

/-- **A glyph starts behind the bytes of all that is written before it.** -/
theorem offset_eq_of_ofTextFrom_eq {offset : Nat} {blanks text : List Char} {xs ys : List Glyph}
    {g : Glyph} (h : ofTextFrom offset blanks text = xs ++ g :: ys) :
    g.offset + utf8Len blanks = offset + utf8Len (written xs ++ g.blanksBefore) := by
  induction text generalizing offset blanks xs with
  | nil => simp [ofTextFrom] at h
  | cons c rest ih =>
    unfold ofTextFrom at h
    by_cases hc : isBlank c = true
    · rw [if_pos hc] at h
      have hrest := ih h
      rw [utf8Len_append, utf8Len_cons, utf8Len_nil] at hrest
      omega
    · rw [if_neg hc] at h
      cases xs with
      | nil =>
        obtain ⟨rfl, -⟩ := List.cons.inj h
        simp [written]
      | cons x xs =>
        obtain ⟨rfl, hrest⟩ := List.cons.inj h
        have hoffset := ih hrest
        rw [written_cons]
        simp only [utf8Len_append, utf8Len_cons, utf8Len_nil] at hoffset ⊢
        omega

/-- **A run of glyphs covers a stretch of the text**, from where its first glyph starts.  Before it
stand the characters of the glyphs before the run, blanks aside. -/
theorem exists_stretch {text : List Char} {xs run ys : List Glyph} {g : Glyph}
    (h : ofText text = xs ++ g :: run ++ ys) :
    ∃ before after, text = before ++ covered (g :: run) ++ after ∧ utf8Len before = g.offset ∧
      strip before = xs.map char := by
  obtain ⟨trailing, htrailing⟩ := exists_eq_written_append 0 [] text
  have hglyphs : ofTextFrom 0 [] text = xs ++ g :: (run ++ ys) := by
    rw [← List.cons_append, ← List.append_assoc]
    exact h
  have hoffset := offset_eq_of_ofTextFrom_eq hglyphs
  have hsplit : ofText text = (xs ++ [g]) ++ (run ++ ys) := by
    rw [h]
    simp
  have hclean : ∀ x ∈ xs ++ [g], x.Clean := by
    intro x hx
    have hmem : x ∈ ofText text := hsplit ▸ List.mem_append_left _ hx
    exact clean_of_mem_ofText hmem
  have hstrip : strip (written xs ++ g.blanksBefore) = xs.map char := by
    have hblanks : strip g.blanksBefore = [] := by
      simpa [strip] using (hclean g (by simp)).blanks
    have hxs : strip (written xs) = xs.map char := strip_flatMap fun x hx => hclean x (by simp [hx])
    unfold strip at hblanks hxs ⊢
    rw [List.filter_append, hblanks, hxs, List.append_nil]
  rw [hglyphs, written_append, written_cons, written_append, List.nil_append] at htrailing
  refine ⟨written xs ++ g.blanksBefore, written ys ++ trailing, ?_, ?_, hstrip⟩
  · show text = _ ++ g.char :: written run ++ _
    rw [htrailing]
    simp
  · rw [utf8Len_nil] at hoffset
    omega

/-- A stretch that a run covers starts and ends with what is no blank. -/
theorem trim_covered {run : List Glyph} (h : ∀ g ∈ run, g.Clean) :
    trim (covered run) = covered run := by
  cases run with
  | nil => rfl
  | cons g rest =>
    have hfirst : (covered (g :: rest)).dropWhile isBlank = covered (g :: rest) := by
      have hg := (h g List.mem_cons_self).char
      exact List.dropWhile_cons_of_neg hg
    obtain ⟨init, c, hlast, hc⟩ : ∃ init c, covered (g :: rest) = init ++ [c] ∧ ¬ isBlank c := by
      rcases List.eq_nil_or_concat' rest with rfl | ⟨others, last, rfl⟩
      · exact ⟨[], g.char, rfl, (h g List.mem_cons_self).char⟩
      · refine ⟨g.char :: (written others ++ last.blanksBefore), last.char, ?_, ?_⟩
        · show g.char :: written (others ++ [last]) = _
          rw [written_append, written_cons]
          simp [written]
        · exact (h last (by simp)).char
    show ((covered (g :: rest)).dropWhile isBlank).rdropWhile isBlank = _
    rw [hfirst, hlast, List.rdropWhile_concat_neg _ _ _ hc]

end Text.Glyph

namespace Token

/-! ### The run of a token -/

theorem Lexeme.longest?_of_scan {g : Glyph} {rest : List Glyph} {word : Keyword}
    (h : scan g rest = .keyword word) : Keyword.longest? (g :: rest) = some word := by
  rcases scan_cases g rest with
    ⟨best, hbest, hscan⟩ | ⟨-, ⟨-, hscan⟩ | ⟨-, hscan⟩ | ⟨-, -, hscan⟩⟩
  · obtain rfl := Lexeme.keyword.inj (hscan.symm.trans h)
    exact hbest
  · cases hscan.symm.trans h
  · cases hscan.symm.trans h
  · cases hscan.symm.trans h

theorem digitsWidth_pos {c : Char} (hc : c.isDigit) (rest : List Char) :
    0 < digitsWidth (c :: rest) := by
  rw [digitsWidth_eq_add, List.takeWhile_cons_of_pos hc, List.length_cons]
  omega

/-- Every lexeme takes the glyph that it starts with. -/
theorem Lexeme.width_scan_pos (g : Glyph) (rest : List Glyph) : 0 < (scan g rest).width := by
  rcases scan_cases g rest with
    ⟨word, -, hscan⟩ | ⟨-, ⟨-, hscan⟩ | ⟨hdigit, hscan⟩ | ⟨-, -, hscan⟩⟩
  · rw [hscan, width, ← String.length_toList]
    exact List.length_pos_of_ne_nil (Keyword.spelling_ne_nil word)
  · rw [hscan]
    exact Nat.one_pos
  · rw [hscan, width, numeralWidth_eq_digitsWidth]
    exact digitsWidth_pos hdigit _
  · rw [hscan]
    exact Nat.one_pos

/-- The token was read from the glyphs `g :: run`. -/
def IsReadFrom (t : Token) (g : Glyph) (run : List Glyph) : Prop :=
  ∃ previous known rest, run = rest.take ((Lexeme.scan g rest).width - 1) ∧
    ofLexeme none previous g rest (Lexeme.scan g rest) = .ok (t, known)

/-- What is left is the end of what there was. -/
theorem Cuts.isSuffix {previous : Option Kind} {xs zs : List Glyph} {ts : List Token}
    (h : Cuts previous xs ts zs) : zs <:+ xs := by
  induction h with
  | done => exact List.suffix_refl _
  | @token previous g rest rest' t ts known _ _ ih =>
    exact (ih.trans (List.drop_suffix _ rest)).trans (List.suffix_cons g rest)

/-- A token among others is read where those before it end. -/
theorem Cuts.exists_read {previous : Option Kind} {xs zs : List Glyph} {before after : List Token}
    {t : Token} (h : Cuts previous xs (before ++ t :: after) zs) :
    ∃ g rest known, Cuts previous xs before (g :: rest) ∧
      ofLexeme none (lastKind previous before) g rest (Lexeme.scan g rest) = .ok (t, known) ∧
      Cuts (some t.kind) (rest.drop ((Lexeme.scan g rest).width - 1)) after zs := by
  induction before generalizing previous xs with
  | nil =>
    cases h with
    | token ht hrest => exact ⟨_, _, _, .done, ht, hrest⟩
  | cons u before ih =>
    cases h with
    | token hu hrest =>
      obtain ⟨g, rest, known, hbefore, ht, hafter⟩ := ih hrest
      exact ⟨g, rest, known, .token hu hbefore, ht, hafter⟩

/-- **Each token that is read has a run of glyphs of its own.** -/
theorem Cuts.exists_run_of_mem {previous : Option Kind} {xs zs : List Glyph} {ts : List Token}
    (h : Cuts previous xs ts zs) {t : Token} (ht : t ∈ ts) :
    ∃ before g run after, xs = before ++ g :: run ++ after ∧ t.IsReadFrom g run := by
  obtain ⟨others, after, rfl⟩ := List.append_of_mem ht
  obtain ⟨g, rest, known, hbefore, hread, -⟩ := h.exists_read
  obtain ⟨before, rfl⟩ := hbefore.isSuffix
  refine ⟨before, g, rest.take ((Lexeme.scan g rest).width - 1),
    rest.drop ((Lexeme.scan g rest).width - 1), ?_, _, known, rest, rfl, hread⟩
  rw [List.append_assoc, List.cons_append, List.take_append_drop]

/-- Numbers and letters keep the text that they are written with. -/
def Kind.keepsText : Kind → Bool
  | .letter | .number _ => true
  | _ => false

theorem keepsText_keyword (previous : Option Kind) (word : Keyword) :
    (word.kind previous).keepsText = false := by
  cases word with
  | operator name =>
    cases name with
    | sub =>
      show (if _ then Kind.binary else Kind.unary).keepsText = false
      split <;> rfl
    | _ => rfl
  | _ => rfl

/-- The literal is the text of the run, for a keyword without the blanks. -/
theorem IsReadFrom.literal {t : Token} {g : Glyph} {run : List Glyph} (h : t.IsReadFrom g run) :
    (t.kind.keepsText → t.literal = String.ofList (Glyph.covered (g :: run))) ∧
      (¬ t.kind.keepsText → t.literal.toList = (g :: run).map Glyph.char) := by
  obtain ⟨previous, known, rest, rfl, ht⟩ := h
  have hpos := Lexeme.width_scan_pos g rest
  have htake : g :: rest.take ((Lexeme.scan g rest).width - 1) =
      (g :: rest).take (Lexeme.scan g rest).width := by
    rw [← List.take_succ_cons, Nat.sub_add_cancel hpos]
  rcases ofLexeme_ok_cases ht with
    ⟨word, hscan, rfl, -⟩ | ⟨hscan, rfl, -⟩ | ⟨width, x, hscan, -, rfl, -⟩
  · refine ⟨fun hkeeps => ?_, fun _ => ?_⟩
    · rw [keepsText_keyword] at hkeeps
      cases hkeeps
    · have hprefix := Keyword.prefix_of_longest? (Lexeme.longest?_of_scan hscan)
      have hspelling := List.prefix_iff_eq_take.1 hprefix
      rw [htake, hscan, List.map_take]
      rwa [String.length_toList] at hspelling
  · rw [hscan]
    exact ⟨fun _ => rfl, fun hkeeps => absurd rfl hkeeps⟩
  · refine ⟨fun _ => ?_, fun hkeeps => absurd rfl hkeeps⟩
    rw [htake, hscan]
    rfl

/-! ### The stretch of a token -/

/-- The token was read from this text, which stands in the formula where the token starts. -/
structure HasStretch (t : Token) (formula text : String) : Prop where
  covers : (Span.mk t.offset text.utf8ByteSize).Covers formula text
  /-- The text starts and ends with what is no blank. -/
  trimmed : trim text.toList = text.toList
  kept : t.kind.keepsText → t.literal = text
  spelled : ¬ t.kind.keepsText → t.literal.toList = strip text.toList

namespace HasStretch

variable {t : Token} {formula text : String}

theorem strip_literal (h : t.HasStretch formula text) :
    strip t.literal.toList = strip text.toList := by
  by_cases hkeeps : t.kind.keepsText = true
  · rw [h.kept hkeeps]
  · rw [h.spelled hkeeps]
    simp [strip]

/-- The bytes that the literal leaves out are those of blanks inside a keyword. -/
theorem length_span (h : t.HasStretch formula text) :
    (t.kind.keepsText → t.span.length = text.utf8ByteSize) ∧
      (¬ t.kind.keepsText →
        t.span.length + utf8Len (text.toList.filter isBlank) = text.utf8ByteSize) := by
  refine ⟨fun hkeeps => ?_, fun hkeeps => ?_⟩
  · rw [span, h.kept hkeeps]
  · rw [span, ← utf8Len_toList, h.spelled hkeeps, Text.utf8Len_strip_add, utf8Len_toList]

/-- The literal takes no more bytes than the stretch. -/
theorem length_span_le (h : t.HasStretch formula text) : t.span.length ≤ text.utf8ByteSize := by
  by_cases hkeeps : t.kind.keepsText = true
  · exact Nat.le_of_eq (h.length_span.1 hkeeps)
  · have hlength := h.length_span.2 hkeeps
    omega

/-- **The span of a token is its stretch unless blanks stand inside a keyword.** -/
theorem covers_span_iff (h : t.HasStretch formula text) :
    t.span.Covers formula text ↔ t.kind.keepsText ∨ ∀ c ∈ text.toList, ¬ isBlank c := by
  have hlength : t.span.Covers formula text ↔ t.span.length = text.utf8ByteSize := by
    refine ⟨fun hcovers => ?_, fun hlength => ?_⟩
    · obtain ⟨before, after, -, -, htext⟩ := hcovers
      exact htext.symm
    · obtain ⟨before, after, hformula, hbefore, -⟩ := h.covers
      exact ⟨before, after, hformula, hbefore, hlength.symm⟩
  rw [hlength]
  by_cases hkeeps : t.kind.keepsText = true
  · simp only [hkeeps, true_or, iff_true]
    exact h.length_span.1 hkeeps
  · have hblanks := h.length_span.2 hkeeps
    have hnone : utf8Len (text.toList.filter isBlank) = 0 ↔ ∀ c ∈ text.toList, ¬ isBlank c := by
      rw [String.utf8Len_eq_zero, List.filter_eq_nil_iff]
    rw [← hnone]
    simp only [hkeeps, false_or, Bool.false_eq_true]
    omega

/-- **The span of a token shows it only if it is the whole stretch.**  The stretch ends with what
is no blank, which a shorter text from the same byte leaves out. -/
theorem shows_span_iff (h : t.HasStretch formula text) :
    t.span.Shows formula t ↔ t.kind.keepsText ∨ ∀ c ∈ text.toList, ¬ isBlank c := by
  rw [← h.covers_span_iff]
  refine ⟨?_, fun hcovers => ⟨text, hcovers, h.strip_literal.symm⟩⟩
  rintro ⟨shown, hshown, hstrip⟩
  obtain ⟨missing, hmissing⟩ := hshown.prefix_of_le h.covers h.length_span_le
  rcases List.eq_nil_or_concat' missing with rfl | ⟨init, last, rfl⟩
  · rw [List.append_nil, String.toList_inj] at hmissing
    rwa [← hmissing]
  · have htrim : trim (shown.toList ++ init ++ [last]) = shown.toList ++ init ++ [last] := by
      rw [List.append_assoc, hmissing]
      exact h.trimmed
    have hlast := Text.not_isBlank_of_trim_eq htrim
    rw [h.strip_literal, ← hmissing] at hstrip
    simp [strip, hlast] at hstrip

end HasStretch

/-- The text that the run of a token covers is its stretch. -/
theorem IsReadFrom.hasStretch {t : Token} {formula : String} {xs run ys : List Glyph} {g : Glyph}
    (h : t.IsReadFrom g run) (hglyphs : Glyph.ofText formula.toList = xs ++ g :: run ++ ys) :
    t.HasStretch formula (String.ofList (Glyph.covered (g :: run))) := by
  obtain ⟨before, after, htext, hbefore, -⟩ := Glyph.exists_stretch hglyphs
  obtain ⟨hkept, hspelled⟩ := h.literal
  have hclean : ∀ x ∈ g :: run, x.Clean := by
    intro x hx
    have hmem : x ∈ Glyph.ofText formula.toList := by
      rw [hglyphs]
      simp only [List.mem_append]
      exact .inl (.inr hx)
    exact Glyph.clean_of_mem_ofText hmem
  have hoffset : t.offset = g.offset := by
    obtain ⟨previous, known, rest, -, hok⟩ := h
    exact offset_of_ofLexeme hok
  refine ⟨?_, ?_, hkept, ?_⟩
  · refine ⟨String.ofList before, String.ofList after, ?_, ?_, rfl⟩
    · rw [← String.ofList_append, ← String.ofList_append, ← htext, String.ofList_toList]
    · rw [String.utf8ByteSize_ofList, hbefore, hoffset]
  · rw [String.toList_ofList]
    exact Glyph.trim_covered hclean
  · rw [String.toList_ofList, Glyph.strip_covered hclean]
    exact hspelled

/-- **Every token that is read has a stretch.** -/
theorem exists_hasStretch {formula : String} {previous : Option Kind} {zs : List Glyph}
    {ts : List Token} (h : Cuts previous (Glyph.ofText formula.toList) ts zs) {t : Token}
    (ht : t ∈ ts) : ∃ text, t.HasStretch formula text := by
  obtain ⟨xs, g, run, ys, hglyphs, hread⟩ := h.exists_run_of_mem ht
  exact ⟨_, hread.hasStretch hglyphs⟩

end Token

end Branchwise
