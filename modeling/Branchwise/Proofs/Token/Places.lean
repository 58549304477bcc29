/-
Where glyphs and tokens stand.

Offsets rise along a text, and every token starts at a glyph of its own, so offsets rise along what
is read.  Nothing but the offset of a token goes by the offsets of glyphs: a run of glyphs that is
moved is cut into the same tokens, moved with it.  This is finer than going by characters, for the
blanks inside a number stay what they are.
-/
import Branchwise.Proofs.Token.Joint

namespace Branchwise

open Text (Glyph isBlank)

namespace Text.Glyph

/-! ### Offsets rise -/

theorem le_offset_of_mem_ofTextFrom {offset : Nat} {blanks text : List Char} {g : Glyph}
    (h : g ∈ ofTextFrom offset blanks text) : offset ≤ g.offset := by
  induction text generalizing offset blanks with
  | nil => simp [ofTextFrom] at h
  | cons c rest ih =>
    unfold ofTextFrom at h
    by_cases hc : isBlank c = true
    · rw [if_pos hc] at h
      exact Nat.le_trans (Nat.le_add_right _ _) (ih h)
    · rw [if_neg hc] at h
      rcases List.mem_cons.1 h with rfl | hrest
      · exact Nat.le_refl _
      · exact Nat.le_trans (Nat.le_add_right _ _) (ih hrest)

theorem pairwise_offset_ofTextFrom (offset : Nat) (blanks text : List Char) :
    (ofTextFrom offset blanks text).Pairwise (·.offset < ·.offset) := by
  induction text generalizing offset blanks with
  | nil => exact List.Pairwise.nil
  | cons c rest ih =>
    unfold ofTextFrom
    by_cases hc : isBlank c = true
    · rw [if_pos hc]
      exact ih _ _
    · rw [if_neg hc]
      refine List.pairwise_cons.2 ⟨fun g hg => ?_, ih _ _⟩
      have hle := le_offset_of_mem_ofTextFrom hg
      have hpos := c.utf8Size_pos
      show offset < g.offset
      omega

/-- The glyph at no particular place. -/
def unplaced (g : Glyph) : Glyph :=
  { g with offset := 0 }

theorem char_eq_of_unplaced_eq (x y : Glyph) (h : x.unplaced = y.unplaced) : x.char = y.char := by
  show x.unplaced.char = y.unplaced.char
  rw [h]

end Text.Glyph

namespace Token

/-- The token at no particular place. -/
def unplaced (t : Token) : Token :=
  { t with offset := 0 }

theorem keeps_unplaced : Keeps unplaced where
  kind _ := rfl
  literal _ _ := rfl

/-- Places are all that may differ. -/
theorem map_kind_literal_of_unplaced_eq {ts us : List Token}
    (h : ts.map unplaced = us.map unplaced) :
    ts.map (fun t => (t.kind, t.literal)) = us.map fun t => (t.kind, t.literal) := by
  have hmap (vs : List Token) : vs.map (fun t => (t.kind, t.literal)) =
      (vs.map unplaced).map fun t => (t.kind, t.literal) := by
    rw [List.map_map]
    rfl
  rw [hmap, h, ← hmap]

theorem oneVariable_of_unplaced_eq {ts us : List Token} (h : ts.map unplaced = us.map unplaced)
    (hts : OneVariable ts) : OneVariable us := by
  have hmap (vs : List Token) : OneVariable (vs.map unplaced) ↔ OneVariable vs :=
    oneVariable_map keeps_unplaced.kind fun _ _ => rfl
  rwa [← hmap, ← h, hmap]

theorem offset_of_ofLexeme {known known' : Option Variable} {previous : Option Kind} {g : Glyph}
    {rest : List Glyph} {lexeme : Lexeme} {t : Token}
    (h : ofLexeme known previous g rest lexeme = .ok (t, known')) : t.offset = g.offset := by
  rcases ofLexeme_ok_cases h with ⟨_, -, rfl, -⟩ | ⟨-, rfl, -⟩ | ⟨_, _, -, -, rfl, -⟩
  · rfl
  · rfl
  · rfl

/-- **Each token starts at a glyph behind that of the token before.** -/
theorem Cuts.offsets_sublist {previous : Option Kind} {xs ys : List Glyph} {ts : List Token}
    (h : Cuts previous xs ts ys) : (ts.map (·.offset)).Sublist (xs.map (·.offset)) := by
  induction h with
  | done => exact List.nil_sublist _
  | @token previous g rest rest' t ts known ht hrest ih =>
    rw [List.map_cons, List.map_cons, offset_of_ofLexeme ht]
    exact (ih.trans ((List.drop_sublist _ rest).map _)).cons_cons _

/-- So offsets rise along the tokens of a text. -/
theorem Cuts.pairwise_offset {previous : Option Kind} {xs ys : List Glyph} {ts : List Token}
    (h : Cuts previous xs ts ys) (hxs : xs.Pairwise (·.offset < ·.offset)) :
    ts.Pairwise (·.offset < ·.offset) := by
  rw [← List.pairwise_map (R := (· < ·))] at hxs ⊢
  exact hxs.sublist h.offsets_sublist

/-! ### Moving glyphs -/

theorem covered_cons_congr {g g' : Glyph} {xs ys : List Glyph} (hchar : g.char = g'.char)
    (h : xs.map Glyph.unplaced = ys.map Glyph.unplaced) :
    Glyph.covered (g :: xs) = Glyph.covered (g' :: ys) := by
  have hflat (run : List Glyph) : (run.flatMap fun x => x.blanksBefore ++ [x.char]) =
      (run.map Glyph.unplaced).flatMap fun x => x.blanksBefore ++ [x.char] := by
    rw [List.flatMap_map]
    rfl
  show g.char :: xs.flatMap _ = g'.char :: ys.flatMap _
  rw [hchar, hflat, h, ← hflat]

/-- An operator, which alone depends on what was read before, is no value. -/
theorem kind_congr_of_isValue {word : Keyword} {previous : Option Kind}
    (h : (word.kind previous).isValue) (previous' : Option Kind) :
    word.kind previous = word.kind previous' := by
  cases word with
  | operator name =>
    have hnone : (Keyword.kind previous (.operator name)).isValue = false := by
      cases name with
      | sub =>
        show (if _ then Kind.binary else Kind.unary).isValue = false
        split <;> rfl
      | _ => rfl
    rw [hnone] at h
    cases h
  | _ => rfl

/-- **A token goes by the characters of its own run and by the blanks inside it.** -/
theorem ofLexeme_of_run_eq {previous previous' : Option Kind} {g g' : Glyph}
    {rest rest' : List Glyph} {lexeme : Lexeme} {t : Token} {known : Option Variable}
    (h : ofLexeme none previous g rest lexeme = .ok (t, known))
    (hprevious : previous = previous' ∨ t.isValue) (hchar : g.char = g'.char)
    (hrun : (rest.take (lexeme.width - 1)).map Glyph.unplaced =
      (rest'.take (lexeme.width - 1)).map Glyph.unplaced) :
    ∃ known', ofLexeme none previous' g' rest' lexeme =
      .ok (⟨t.kind, t.literal, g'.offset⟩, known') := by
  rcases ofLexeme_ok_cases h with
    ⟨word, rfl, rfl, -⟩ | ⟨rfl, rfl, -⟩ | ⟨width, x, rfl, hread, rfl, -⟩
  · have hkind : word.kind previous = word.kind previous' := by
      rcases hprevious with rfl | hvalue
      · rfl
      · exact kind_congr_of_isValue hvalue previous'
    refine ⟨none, ?_⟩
    rw [hkind]
    rfl
  · refine ⟨some ⟨g'.char, g'.offset⟩, ?_⟩
    rw [hchar]
    rfl
  · obtain ⟨hchars, hcovered⟩ : ((g :: rest).take width).map Glyph.char =
          ((g' :: rest').take width).map Glyph.char ∧
        Glyph.covered ((g :: rest).take width) = Glyph.covered ((g' :: rest').take width) := by
      cases width with
      | zero => exact ⟨rfl, rfl⟩
      | succ n =>
        have hrest : (rest.take n).map Glyph.unplaced = (rest'.take n).map Glyph.unplaced := hrun
        rw [List.take_succ_cons, List.take_succ_cons, List.map_cons, List.map_cons, hchar,
          map_char_of_map_eq Glyph.char_eq_of_unplaced_eq hrest]
        exact ⟨rfl, covered_cons_congr hchar hrest⟩
    refine ⟨none, ?_⟩
    unfold ofLexeme
    dsimp only
    rw [← hchars, hread, hcovered]

/-- **Glyphs that are moved are cut into the same tokens, moved with them.** -/
theorem Cuts.unplaced_congr {previous : Option Kind} {xs ys zs : List Glyph} {ts : List Token}
    (h : Cuts previous xs ts zs) (hsame : xs.map Glyph.unplaced = ys.map Glyph.unplaced) :
    ∃ us zs', Cuts previous ys us zs' ∧ zs.map Glyph.unplaced = zs'.map Glyph.unplaced ∧
      ts.map unplaced = us.map unplaced := by
  refine h.labels_congr (P := fun _ => True) Glyph.char_eq_of_unplaced_eq ?_ ?_ hsame
    (fun _ _ => trivial) fun _ _ => trivial
  · intro t u htu
    show t.unplaced.kind = u.unplaced.kind
    rw [htu]
  · intro previous g g' rest rest' lexeme t known hsame _ _ ht
    obtain ⟨hhead, htail⟩ := List.cons.inj hsame
    have hrun := congrArg (List.take (lexeme.width - 1)) htail
    rw [← List.map_take, ← List.map_take] at hrun
    obtain ⟨known', ht'⟩ :=
      ofLexeme_of_run_eq ht (.inl rfl) (Glyph.char_eq_of_unplaced_eq g g' hhead) hrun
    exact ⟨_, known', ht', rfl⟩

end Token

end Branchwise
