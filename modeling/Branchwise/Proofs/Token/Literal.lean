/-
What a literal says of its token.

A token of a formula is written as a piece (`IsWritten`), and the text of a piece is enough to know
the piece by.  So tokens with one literal are written as one piece, and of their kinds only one
thing is left open: whether a minus negates or subtracts (`IsWritten.kind_eq_or`).  In the other
direction a mark has one literal only.
-/
import Branchwise.Proofs.Token.Lossless

namespace Branchwise

open Text (Glyph isBlank strip)

/-- A piece that a text starts with is what its own text starts with. -/
theorem Piece.Leads.self {p : Piece} {text : List Char} (h : p.Leads text) : p.Leads p.text := by
  cases h with
  | keyword hstart hlongest =>
    exact .keyword (List.prefix_refl _) fun other hother => hlongest other (hother.trans hstart)
  | letter hstart hnone hletter =>
    exact .letter (List.prefix_refl _) (fun word hword => hnone word (hword.trans hstart)) hletter
  | numeral hstart hnone hnumeral hlongest =>
    exact .numeral (List.prefix_refl _) (fun word hword => hnone word (hword.trans hstart)) hnumeral
      fun longer hlonger hword => hlongest longer hlonger (hword.trans hstart)

theorem Keyword.leads (word : Keyword) : (Piece.keyword word).Leads word.spelling.toList :=
  .keyword (List.prefix_refl _) fun other hother => by
    rw [← String.length_toList, ← String.length_toList]
    exact hother.length_le

/-! ### Words of a printed text -/

/-- Where a word of a printed text ends. -/
def endsWord (c : Char) : Bool :=
  c = ' ' || c = '(' || c = ')'

/-- There is something to read, up to a space or a bracket. -/
structure IsWord (text : List Char) : Prop where
  ne_nil : text ≠ []
  inside : ∀ c ∈ text, ¬ endsWord c

theorem Keyword.isWord {word : Keyword} (hopen : word ≠ .leftParen) (hclose : word ≠ .rightParen) :
    IsWord word.spelling.toList := by
  have hall : all.all fun word =>
      word = .leftParen || word = .rightParen || word.spelling.toList.all (!endsWord ·) := by
    decide
  have hword := List.all_eq_true.1 hall word (mem_all word)
  refine ⟨spelling_ne_nil word, fun c hc => ?_⟩
  have hinside : word.spelling.toList.all (!endsWord ·) := by simpa [hopen, hclose] using hword
  simpa using List.all_eq_true.1 hinside c hc

/-- Characters of a class that no end of a word belongs to. -/
theorem not_endsWord_of {isOfClass : Char → Bool} (hspace : ¬ isOfClass ' ')
    (hopen : ¬ isOfClass '(') (hclose : ¬ isOfClass ')') {c : Char} (hc : isOfClass c) :
    ¬ endsWord c := by
  intro hends
  have hmark : c = ' ' ∨ c = '(' ∨ c = ')' := by simpa [endsWord, or_assoc] using hends
  rcases hmark with rfl | rfl | rfl
  · exact hspace hc
  · exact hopen hc
  · exact hclose hc

theorem isWord_letter {c : Char} (hc : c.isAlpha) : IsWord [c] := by
  refine ⟨List.cons_ne_nil _ _, List.forall_mem_singleton.2 ?_⟩
  exact not_endsWord_of (by decide) (by decide) (by decide) hc

theorem IsNumeral.isWord {digits : List Char} (h : IsNumeral digits) : IsWord digits := by
  obtain ⟨c, rest, hcons, -⟩ := h.exists_cons
  refine ⟨hcons ▸ List.cons_ne_nil c rest, h.forall_mem (fun d hd => ?_) (by decide)⟩
  exact not_endsWord_of (by decide) (by decide) (by decide) hd

namespace Token

/-- The token is written as a piece, whatever stands around it. -/
def IsWritten (t : Token) : Prop :=
  ∃ (previous : Option Kind) (p : Piece), p.Leads p.text ∧ t.Writes previous p

theorem isWritten_impliedProduct (offset : Nat) : (impliedProduct offset).IsWritten :=
  ⟨none, .keyword (.operator .mul), Keyword.leads _, rfl, rfl⟩

/-- A number, if the token is one, is written without blanks. -/
def IsUnbroken (t : Token) : Prop :=
  ∀ x, t.kind = .number x → ∀ c ∈ t.literal.toList, ¬ isBlank c

variable {t u : Token}

/-! ### Kinds -/

/-- A keyword has one kind, but a minus has two. -/
theorem kind_keyword_eq_or (word : Keyword) (previous previous' : Option Kind) :
    word.kind previous = word.kind previous' ∨
      (word.kind previous = .unary ∧ word.kind previous' = .binary) ∨
      (word.kind previous = .binary ∧ word.kind previous' = .unary) := by
  cases word with
  | operator name =>
    cases name with
    | sub =>
      simp only [Keyword.kind]
      split <;> split <;> simp
    | _ => exact .inl rfl
  | _ => exact .inl rfl

/-- **One literal is one piece, so the kinds are equal or a minus is read in both its ways.** -/
theorem IsWritten.kind_eq_or (ht : t.IsWritten) (hu : u.IsWritten) (h : t.literal = u.literal) :
    t.kind = u.kind ∨ (t.kind = .unary ∧ u.kind = .binary) ∨
      (t.kind = .binary ∧ u.kind = .unary) := by
  obtain ⟨previous, p, hp, hwrites⟩ := ht
  obtain ⟨previous', q, hq, hwrites'⟩ := hu
  have htext : p.text = q.text := by
    rw [← hwrites.strip_literal hp, h, hwrites'.strip_literal hq]
  obtain rfl : p = q := hp.unique (htext ▸ hq)
  cases p with
  | keyword word =>
    rw [hwrites.1, hwrites'.1]
    exact kind_keyword_eq_or word previous previous'
  | letter c => exact .inl (hwrites.1.trans hwrites'.1.symm)
  | numeral digits =>
    obtain ⟨⟨x, hkind, hx⟩, -⟩ := hwrites
    obtain ⟨⟨y, hkind', hy⟩, -⟩ := hwrites'
    obtain rfl : x = y := Option.some.inj (hx.symm.trans hy)
    exact .inl (hkind.trans hkind'.symm)

theorem IsWritten.kind_eq (ht : t.IsWritten) (hu : u.IsWritten) (h : t.literal = u.literal)
    (hminus : t.kind ≠ .unary) (hminus' : u.kind ≠ .unary) : t.kind = u.kind := by
  rcases ht.kind_eq_or hu h with hkind | ⟨hunary, -⟩ | ⟨-, hunary⟩
  · exact hkind
  · exact absurd hunary hminus
  · exact absurd hunary hminus'

/-! ### Marks -/

/-- Kinds that tell the keyword. -/
def Kind.mark? : Kind → Option Keyword
  | .separator => some .separator
  | .leftParen => some .leftParen
  | .rightParen => some .rightParen
  | _ => none

theorem mark?_keyword {word mark : Keyword} {previous : Option Kind}
    (h : (word.kind previous).mark? = some mark) : word = mark := by
  cases word with
  | operator name =>
    cases name with
    | sub =>
      rw [Keyword.kind] at h
      split at h <;> cases h
    | _ => cases h
  | separator => exact Option.some.inj h
  | leftParen => exact Option.some.inj h
  | rightParen => exact Option.some.inj h
  | _ => cases h

/-- The literal of a mark is known from its kind. -/
theorem IsWritten.literal_of_mark (ht : t.IsWritten) {mark : Keyword}
    (h : t.kind.mark? = some mark) : t.literal = mark.spelling := by
  obtain ⟨previous, p, -, hwrites⟩ := ht
  cases p with
  | keyword word =>
    rw [hwrites.1] at h
    rw [hwrites.2, mark?_keyword h]
  | letter c =>
    rw [hwrites.1] at h
    cases h
  | numeral digits =>
    obtain ⟨⟨x, hkind, -⟩, -⟩ := hwrites
    rw [hkind] at h
    cases h

theorem unplaced_congr (hkind : t.kind = u.kind) (hliteral : t.literal = u.literal) :
    t.unplaced = u.unplaced := by
  rw [unplaced, unplaced, hkind, hliteral]

theorem IsWritten.unplaced_eq_of_mark (ht : t.IsWritten) (hu : u.IsWritten) {kind : Kind}
    {mark : Keyword} (hkind : t.kind = kind) (hkind' : u.kind = kind)
    (hmark : kind.mark? = some mark) : t.unplaced = u.unplaced := by
  refine unplaced_congr (hkind.trans hkind'.symm) ?_
  rw [ht.literal_of_mark (hkind ▸ hmark), hu.literal_of_mark (hkind' ▸ hmark)]

/-! ### Literals as words -/

/-- **Apart from brackets and from numbers with blanks inside, a literal is a word.** -/
theorem IsWritten.isWord (ht : t.IsWritten) (hopen : t.kind ≠ .leftParen)
    (hclose : t.kind ≠ .rightParen) (hunbroken : t.IsUnbroken) : IsWord t.literal.toList := by
  obtain ⟨previous, p, hp, hwrites⟩ := ht
  cases hp with
  | @keyword _ word =>
    obtain ⟨hkind, hliteral⟩ := hwrites
    rw [hliteral]
    refine Keyword.isWord ?_ ?_
    · rintro rfl
      exact hopen hkind
    · rintro rfl
      exact hclose hkind
  | letter _ _ hletter =>
    obtain ⟨-, hliteral⟩ := hwrites
    rw [hliteral]
    simpa using isWord_letter hletter
  | numeral _ _ hnumeral =>
    obtain ⟨⟨x, hkind, -⟩, hstrip⟩ := hwrites
    have hsame : strip t.literal.toList = t.literal.toList := by
      rw [strip, List.filter_eq_self]
      intro c hc
      simpa using hunbroken x hkind c hc
    rw [← hsame, hstrip]
    exact hnumeral.isWord

/-- No piece is the word that a printed tree has for a group. -/
theorem IsWritten.literal_ne_group (ht : t.IsWritten) : t.literal ≠ "group" := by
  intro h
  obtain ⟨previous, p, hp, hwrites⟩ := ht
  have htext : "group".toList = p.text := by
    rw [← hwrites.strip_literal hp, h]
    decide
  cases hp with
  | @keyword _ word =>
    have hall : ∀ word ∈ Keyword.all, word.spelling ≠ "group" := by decide
    exact hall word (Keyword.mem_all word) (String.toList_inj.1 htext.symm)
  | letter => simp [Piece.text] at htext
  | numeral _ _ hnumeral =>
    obtain ⟨c, rest, rfl, hc⟩ := hnumeral.exists_cons
    obtain ⟨rfl, -⟩ := List.cons.inj htext
    exact absurd hc (by decide)

end Token

open Token in
/-- **Every token of a formula is written as a piece.** -/
theorem isWritten_of_tokenize {formula : String} {ts : List Token} (h : tokenize formula = .ok ts) :
    ∀ t ∈ ts, t.IsWritten := by
  obtain ⟨us, hcuts, -, rfl⟩ := tokenize_eq_ok_iff.1 h
  intro t ht
  obtain ⟨k, hk⟩ := List.mem_iff_getElem?.1 ht
  rcases getElem?_insertProducts hk with hmem | ⟨⟨offset, rfl⟩, -⟩
  · obtain ⟨before, after, rfl⟩ := List.append_of_mem hmem
    obtain ⟨p, remaining, -, hp, hwrites⟩ := hcuts.isPieceBehind
    exact ⟨_, p, hp.self, hwrites⟩
  · exact isWritten_impliedProduct offset

end Branchwise
