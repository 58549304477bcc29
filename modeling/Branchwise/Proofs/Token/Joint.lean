/-
Where one text may be put behind another.

The longest keyword and the longest run of digits look ahead, so two texts side by side need not
read as the one and then the other.  They do at a mark: brackets, the separator and the operators
are characters that no longer keyword and no number contains.  Nothing read before a mark reaches
into it, and a mark is read alone whatever follows.
-/
import Branchwise.Proofs.Token.Reading

namespace Branchwise

open Text (Glyph isBlank strip)

namespace Keyword

/-- A character that is read alone, or not at all. -/
structure Separates (c : Char) : Prop where
  alone : ∀ word ∈ all, c ∈ word.spelling.toList → word.spelling.toList = [c]
  digit : ¬ c.isDigit
  point : c ≠ '.'

instance (c : Char) : Decidable (Separates c) :=
  decidable_of_iff ((∀ word ∈ all, c ∈ word.spelling.toList → word.spelling.toList = [c]) ∧
      ¬ c.isDigit ∧ c ≠ '.')
    ⟨fun ⟨alone, digit, point⟩ => ⟨alone, digit, point⟩,
      fun ⟨alone, digit, point⟩ => ⟨alone, digit, point⟩⟩

/-- Brackets, the separator and the operators. -/
def IsMark : Keyword → Prop
  | .operator _ | .separator | .leftParen | .rightParen => True
  | _ => False

theorem IsMark.exists_separates {mark : Keyword} (h : mark.IsMark) :
    ∃ c, mark.spelling.toList = [c] ∧ Separates c := by
  cases mark with
  | operator name =>
    cases name with
    | add => exact ⟨'+', rfl, by decide⟩
    | sub => exact ⟨'-', rfl, by decide⟩
    | mul => exact ⟨'*', rfl, by decide⟩
    | div => exact ⟨'/', rfl, by decide⟩
    | pow => exact ⟨'^', rfl, by decide⟩
  | separator => exact ⟨',', rfl, by decide⟩
  | leftParen => exact ⟨'(', rfl, by decide⟩
  | rightParen => exact ⟨')', rfl, by decide⟩
  | _ => exact h.elim

theorem IsMark.separates {mark : Keyword} {c : Char} (h : mark.IsMark)
    (hc : mark.spelling.toList = [c]) : Separates c := by
  obtain ⟨d, hd, hsep⟩ := h.exists_separates
  obtain rfl : c = d := by simpa using hc.symm.trans hd
  exact hsep

/-! ### The longest keyword -/

/-- The longest keyword is spelled by the first glyphs. -/
theorem prefix_of_longest? {xs : List Glyph} {word : Keyword} (h : longest? xs = some word) :
    word.spelling.toList <+: xs.map Glyph.char := by
  have hmem := (List.mem_filter.1 (List.maxOn?_mem h)).2
  rwa [Glyph.spells_eq_isPrefixOf, List.isPrefixOf_iff_prefix] at hmem

theorem exists_longest?_of_prefix {xs : List Glyph} {word : Keyword}
    (h : word.spelling.toList <+: xs.map Glyph.char) :
    ∃ best, longest? xs = some best ∧ word.spelling.length ≤ best.spelling.length := by
  have hmem : word ∈ all.filter fun word => Glyph.spells word.spelling.toList xs := by
    rw [List.mem_filter, Glyph.spells_eq_isPrefixOf, List.isPrefixOf_iff_prefix]
    exact ⟨mem_all word, h⟩
  have hsome : (longest? xs).isSome := List.isSome_maxOn?_iff.2 (List.ne_nil_of_mem hmem)
  have hle := List.le_apply_get_maxOn?_of_mem (f := fun word => word.spelling.length) hmem
  exact ⟨(longest? xs).get hsome, (Option.some_get hsome).symm, hle⟩

/-- Keywords that match are all that counts. -/
theorem longest?_eq_of_matches {xs ys : List Glyph}
    (h : ∀ word ∈ all, word.spelling.toList <+: xs.map Glyph.char ↔
      word.spelling.toList <+: ys.map Glyph.char) : longest? xs = longest? ys := by
  have hfilter : all.filter (fun word => Glyph.spells word.spelling.toList xs) =
      all.filter fun word => Glyph.spells word.spelling.toList ys := by
    refine List.filter_congr fun word hword => ?_
    rw [Glyph.spells_eq_isPrefixOf, Glyph.spells_eq_isPrefixOf, Bool.eq_iff_iff,
      List.isPrefixOf_iff_prefix, List.isPrefixOf_iff_prefix, h word hword]
  rw [longest?, longest?, hfilter]

/-- What stands behind the longest keyword is not asked for. -/
theorem longest?_of_append {xs ys : List Glyph}
    (h : ∀ word, longest? (xs ++ ys) = some word → word.spelling.length ≤ xs.length) :
    longest? xs = longest? (xs ++ ys) := by
  refine longest?_eq_of_matches fun word _ => ?_
  rw [List.map_append]
  refine ⟨fun hword => hword.trans (List.prefix_append _ _), fun hword => ?_⟩
  rw [← List.map_append] at hword
  obtain ⟨best, hbest, hle⟩ := exists_longest?_of_prefix hword
  refine List.prefix_of_prefix_length_le hword (by simp) ?_
  rw [String.length_toList, List.length_map]
  exact Nat.le_trans hle (h best hbest)

/-- No keyword reaches across a separating character. -/
theorem longest?_append_cons {xs ys : List Glyph} {g : Glyph} (hxs : xs ≠ [])
    (hg : Separates g.char) : longest? (xs ++ g :: ys) = longest? xs := by
  refine longest?_eq_of_matches fun word hword => ?_
  rw [List.map_append, List.map_cons]
  refine ⟨fun h => ?_, fun h => h.trans (List.prefix_append _ _)⟩
  have hjoint : xs.map Glyph.char ++ [g.char] <+:
      xs.map Glyph.char ++ g.char :: ys.map Glyph.char :=
    ⟨ys.map Glyph.char, by simp⟩
  have hnot : ¬ xs.map Glyph.char ++ [g.char] <+: word.spelling.toList := by
    intro hreach
    rw [hg.alone word hword (hreach.subset (by simp))] at hreach
    have := hreach.length_le
    simp_all
  rcases List.prefix_or_prefix_of_prefix h hjoint with hshort | hreach
  · rcases List.prefix_concat_iff.1 hshort with heq | hshort
    · exact absurd (heq ▸ List.prefix_refl _) hnot
    · exact hshort
  · exact absurd hreach hnot

/-- A separating character is a keyword by itself or none. -/
theorem longest?_cons {g : Glyph} (hg : Separates g.char) (ys : List Glyph) :
    longest? (g :: ys) = longest? [g] := by
  refine longest?_eq_of_matches fun word hword => ?_
  refine ⟨?_, ?_⟩
  · intro h
    cases hspelling : word.spelling.toList with
    | nil => exact List.nil_prefix
    | cons c rest =>
      rw [hspelling] at h
      obtain ⟨rfl, -⟩ := List.cons_prefix_cons.1 h
      rw [← hspelling, hg.alone word hword (by simp [hspelling])]
      exact List.prefix_refl _
  · exact fun h => h.trans (by simp)

theorem spelling_ne_nil (word : Keyword) : word.spelling.toList ≠ [] := by
  have hall : ∀ word ∈ all, word.spelling.toList ≠ [] := by decide
  exact hall word (mem_all word)

/-- No keyword contains a blank. -/
theorem not_isBlank_of_mem_spelling {word : Keyword} {c : Char}
    (hc : c ∈ word.spelling.toList) : ¬ isBlank c := by
  have hall : Keyword.all.all fun word => word.spelling.toList.all (!isBlank ·) := by decide
  have hword := List.all_eq_true.1 (List.all_eq_true.1 hall word (Keyword.mem_all word)) c hc
  simpa using hword

theorem strip_spelling (word : Keyword) : strip word.spelling.toList = word.spelling.toList := by
  rw [strip, List.filter_eq_self]
  intro c hc
  simpa using not_isBlank_of_mem_spelling hc

/-- Every keyword is the longest one in its own spelling. -/
theorem longest?_spelling {word : Keyword} {xs : List Glyph}
    (h : xs.map Glyph.char = word.spelling.toList) : longest? xs = some word := by
  have hall : ∀ word ∈ all, longest? (word.spelling.toList.map (⟨·, 0, []⟩)) = some word := by
    decide
  rw [← hall word (mem_all word)]
  refine longest?_congr ?_
  simp [h, Function.comp_def]

end Keyword

namespace Token

open Keyword (Separates)

/-! ### The width of a lexeme -/

theorem takeWhile_append_cons {p : Char → Bool} {c : Char} (hc : ¬ p c) (xs ys : List Char) :
    (xs ++ c :: ys).takeWhile p = xs.takeWhile p := by
  induction xs with
  | nil => simp [hc]
  | cons x xs ih => simp [List.takeWhile_cons, ih]

theorem takeWhile_of_append {p : Char → Bool} {xs ys : List Char}
    (h : ((xs ++ ys).takeWhile p).length ≤ xs.length) :
    xs.takeWhile p = (xs ++ ys).takeWhile p := by
  rw [List.takeWhile_append] at h ⊢
  by_cases hwhole : (xs.takeWhile p).length = xs.length
  · rw [if_pos hwhole, List.length_append] at h
    have hnone : ys.takeWhile p = [] := List.eq_nil_of_length_eq_zero (by omega)
    rw [if_pos hwhole, hnone, List.append_nil]
    exact (List.takeWhile_prefix p).eq_of_length hwhole
  · rw [if_neg hwhole]

/-- How many characters a point and the digits behind it take, if there are any. -/
def fractionWidth : List Char → Nat
  | [] => 0
  | mark :: rest =>
    let fraction := (rest.takeWhile Char.isDigit).length
    if mark = '.' ∧ fraction ≠ 0 then 1 + fraction else 0

theorem digitsWidth_eq_add (text : List Char) :
    digitsWidth text = (text.takeWhile Char.isDigit).length +
      fractionWidth (text.drop (text.takeWhile Char.isDigit).length) := by
  unfold digitsWidth
  dsimp only
  cases text.drop (text.takeWhile Char.isDigit).length with
  | nil => rfl
  | cons mark rest =>
    unfold fractionWidth
    simp only [Bool.and_eq_true, decide_eq_true_eq, bne_iff_ne]
    split
    · rw [Nat.add_assoc]
    · rfl

theorem fractionWidth_of_append {xs ys : List Char} (h : fractionWidth (xs ++ ys) ≤ xs.length) :
    fractionWidth xs = fractionWidth (xs ++ ys) := by
  cases xs with
  | nil => exact (Nat.le_zero.1 h).symm
  | cons mark rest =>
    rw [List.cons_append] at h ⊢
    unfold fractionWidth at h ⊢
    dsimp only at h ⊢
    by_cases hmark : mark = '.'
    · have hle : ((rest ++ ys).takeWhile Char.isDigit).length ≤ rest.length := by
        by_cases hnone : ((rest ++ ys).takeWhile Char.isDigit).length = 0
        · omega
        · rw [if_pos ⟨hmark, hnone⟩, List.length_cons] at h
          omega
      rw [takeWhile_of_append hle]
    · rw [if_neg fun hpoint => hmark hpoint.1, if_neg fun hpoint => hmark hpoint.1]

/-- What stands behind a number is not asked for. -/
theorem digitsWidth_of_append {xs ys : List Char} (h : digitsWidth (xs ++ ys) ≤ xs.length) :
    digitsWidth xs = digitsWidth (xs ++ ys) := by
  rw [digitsWidth_eq_add (xs ++ ys)] at h
  have hwhole : xs.takeWhile Char.isDigit = (xs ++ ys).takeWhile Char.isDigit :=
    takeWhile_of_append (by omega)
  have hle := (List.takeWhile_prefix Char.isDigit (l := xs)).length_le
  rw [← hwhole, List.drop_append_of_le_length hle] at h
  rw [digitsWidth_eq_add, digitsWidth_eq_add (xs ++ ys), ← hwhole,
    List.drop_append_of_le_length hle, fractionWidth_of_append]
  rw [List.length_drop]
  omega

/-- A number ends where its characters end. -/
theorem digitsWidth_append_cons {c : Char} (hc : Separates c) (xs ys : List Char) :
    digitsWidth (xs ++ c :: ys) = digitsWidth xs := by
  have hle := (List.takeWhile_prefix Char.isDigit (l := xs)).length_le
  rw [digitsWidth, digitsWidth, takeWhile_append_cons hc.digit, List.drop_append_of_le_length hle]
  cases xs.drop (xs.takeWhile Char.isDigit).length with
  | nil => simp [hc.point]
  | cons mark rest => simp only [List.cons_append, takeWhile_append_cons hc.digit]

theorem digitsWidth_le (text : List Char) : digitsWidth text ≤ text.length := by
  have hle := (List.takeWhile_prefix Char.isDigit (l := text)).length_le
  rw [digitsWidth]
  cases h : text.drop (text.takeWhile Char.isDigit).length with
  | nil => exact hle
  | cons mark rest =>
    have hlen := congrArg List.length h
    have hrest := (List.takeWhile_prefix Char.isDigit (l := rest)).length_le
    rw [List.length_drop, List.length_cons] at hlen
    simp only
    split <;> omega

theorem Lexeme.width_scan_le (g : Glyph) (rest : List Glyph) :
    (scan g rest).width ≤ rest.length + 1 := by
  rcases scan_cases g rest with
    ⟨word, hword, hscan⟩ | ⟨-, ⟨-, hscan⟩ | ⟨-, hscan⟩ | ⟨-, -, hscan⟩⟩
  · have hle := (Keyword.prefix_of_longest? hword).length_le
    rw [String.length_toList, List.length_map, List.length_cons] at hle
    rwa [hscan]
  · rw [hscan]
    exact Nat.le_add_left 1 _
  · rw [hscan, width, numeralWidth_eq_digitsWidth]
    simpa using digitsWidth_le ((g :: rest).map Glyph.char)
  · rw [hscan]
    exact Nat.le_add_left 1 _

/-- What starts at a glyph does not depend on what stands behind it. -/
theorem Lexeme.scan_of_append {x : Glyph} {rest ys : List Glyph}
    (h : (scan x (rest ++ ys)).width ≤ rest.length + 1) : scan x rest = scan x (rest ++ ys) := by
  have hlongest : Keyword.longest? (x :: rest) = Keyword.longest? (x :: (rest ++ ys)) := by
    refine Keyword.longest?_of_append fun word hword => ?_
    rw [List.cons_append] at hword
    unfold scan at h
    rw [hword] at h
    exact h
  unfold scan at h ⊢
  rw [hlongest]
  cases hword : Keyword.longest? (x :: (rest ++ ys)) with
  | some word => rfl
  | none =>
    rw [hword] at h
    dsimp only at h ⊢
    by_cases halpha : x.char.isAlpha = true
    · rw [if_pos halpha, if_pos halpha]
    · rw [if_neg halpha] at h ⊢
      rw [if_neg halpha]
      by_cases hdigit : x.char.isDigit = true
      · rw [if_pos hdigit] at h ⊢
        rw [if_pos hdigit]
        rw [numeralWidth_eq_digitsWidth, ← List.cons_append, List.map_append] at h
        rw [numeralWidth_eq_digitsWidth, numeralWidth_eq_digitsWidth, ← List.cons_append,
          List.map_append, digitsWidth_of_append]
        rw [List.length_map]
        exact h
      · rw [if_neg hdigit, if_neg hdigit]

/-- What starts at a glyph does not depend on what follows a mark. -/
theorem Lexeme.scan_append_cons {x g : Glyph} (hg : Separates g.char) (rest ys : List Glyph) :
    scan x (rest ++ g :: ys) = scan x rest := by
  have hmap : (x :: (rest ++ g :: ys)).map Glyph.char =
      (x :: rest).map Glyph.char ++ g.char :: ys.map Glyph.char := by simp
  have hwidth : numeralWidth (x :: (rest ++ g :: ys)) = numeralWidth (x :: rest) := by
    rw [numeralWidth_eq_digitsWidth, numeralWidth_eq_digitsWidth, hmap,
      digitsWidth_append_cons hg]
  rw [scan, scan, hwidth, ← List.cons_append, Keyword.longest?_append_cons (by simp) hg]

/-- A lexeme asks for no more glyphs than it takes. -/
theorem ofLexeme_append {previous : Option Kind} {g : Glyph} {rest : List Glyph}
    {lexeme : Lexeme} (hwidth : lexeme.width ≤ rest.length + 1) (ys : List Glyph) :
    ofLexeme none previous g (rest ++ ys) lexeme = ofLexeme none previous g rest lexeme := by
  cases lexeme with
  | numeral width =>
    have htake : (g :: (rest ++ ys)).take width = (g :: rest).take width := by
      rw [← List.cons_append, List.take_append_of_le_length hwidth]
    simp only [ofLexeme, htake]
  | _ => rfl

/-! ### Cutting side by side -/

/-- **A mark leaves what is before it as it was.** -/
theorem Cuts.append_cons {previous : Option Kind} {xs zs : List Glyph} {ts : List Token}
    {g : Glyph} (h : Cuts previous xs ts zs) (hg : Separates g.char) (ys : List Glyph) :
    Cuts previous (xs ++ g :: ys) ts (zs ++ g :: ys) := by
  induction h with
  | done => exact .done
  | @token previous x rest rest' t ts known ht _ ih =>
    have hwidth := Lexeme.width_scan_le x rest
    have ht' : ofLexeme none previous x (rest ++ g :: ys) (Lexeme.scan x (rest ++ g :: ys)) =
        .ok (t, known) := by
      rwa [Lexeme.scan_append_cons hg, ofLexeme_append hwidth]
    rw [← List.drop_append_of_le_length (by omega), ← Lexeme.scan_append_cons hg rest ys] at ih
    exact .token ht' ih

/-- A keyword that is the longest one is read. -/
theorem Cuts.keyword {previous : Option Kind} {x : Glyph} {xs ys : List Glyph} {word : Keyword}
    (hword : (x :: xs).map Glyph.char = word.spelling.toList)
    (hlongest : Keyword.longest? (x :: (xs ++ ys)) = some word) :
    Cuts previous (x :: (xs ++ ys)) [⟨word.kind previous, word.spelling, x.offset⟩] ys := by
  have hscan : Lexeme.scan x (xs ++ ys) = .keyword word := by rw [Lexeme.scan, hlongest]
  have hlen : word.spelling.length - 1 = xs.length := by
    rw [← String.length_toList, ← hword]
    simp
  refine Cuts.token (by rw [hscan]; rfl) ?_
  rw [hscan, Lexeme.width, hlen, List.drop_left]
  exact .done

/-- **A mark is read alone.** -/
theorem Cuts.mark {previous : Option Kind} {x : Glyph} (mark : Keyword) (hmark : mark.IsMark)
    (hx : mark.spelling.toList = [x.char]) (ys : List Glyph) :
    Cuts previous (x :: ys) [⟨mark.kind previous, mark.spelling, x.offset⟩] ys := by
  have hsep := hmark.separates hx
  have hlongest : Keyword.longest? (x :: ([] ++ ys)) = some mark := by
    rw [List.nil_append, Keyword.longest?_cons hsep]
    exact Keyword.longest?_spelling hx.symm
  have hword : [x].map Glyph.char = mark.spelling.toList := hx.symm
  exact Cuts.keyword hword hlongest

/-- A name in front of a mark is read whole. -/
theorem Cuts.name {previous : Option Kind} {xs : List Glyph} {g : Glyph} {word : Keyword}
    (hword : xs.map Glyph.char = word.spelling.toList) (hg : Separates g.char) (ys : List Glyph) :
    ∃ offset, Cuts previous (xs ++ g :: ys) [⟨word.kind previous, word.spelling, offset⟩]
      (g :: ys) := by
  cases xs with
  | nil => exact absurd hword.symm (Keyword.spelling_ne_nil word)
  | cons x xs =>
    have hlongest : Keyword.longest? (x :: (xs ++ g :: ys)) = some word := by
      rw [← List.cons_append, Keyword.longest?_append_cons (by simp) hg]
      exact Keyword.longest?_spelling hword
    exact ⟨x.offset, Cuts.keyword hword hlongest⟩

end Token

end Branchwise
