/-
Writing the implied products out.

A product that is implied takes no text: its token stands where the next token starts, and no token
that was read stands there.  So the tokens tell where a star is left out (`impliedOffsets`), and the
stars can be written into the text (`writeStars`).

A star changes no word around it.  What is read before it may look at the star now, where it looked
at a value before; but it stopped short of the value, and a star is nothing that it could go on
with.  What is read behind it is a value, and a value is the same after a star as after a value.
The induction is on the cutting of the text, and its invariant is `StarsDue`: behind each token, the
stars yet to be written stand where products are yet to be implied.
-/
import Branchwise.Proofs.Token.Places

namespace Branchwise

open Text (Glyph isBlank)

/-! ### Stars in a text -/

/-- The text with a star before each character that starts at one of the offsets, if its own first
character starts at `offset`. -/
def Text.writeStars (offsets : List Nat) (offset : Nat) : List Char → List Char
  | [] => []
  | c :: rest =>
    if offset ∈ offsets then '*' :: c :: writeStars offsets (offset + c.utf8Size) rest
    else c :: writeStars offsets (offset + c.utf8Size) rest

namespace Text.Glyph

/-- The glyphs with a star before each that starts at one of the offsets.  The blanks before such a
glyph come to stand before the star. -/
def withStars (offsets : List Nat) (glyphs : List Glyph) : List Glyph :=
  glyphs.flatMap fun g =>
    if g.offset ∈ offsets then [{ g with char := '*' }, { g with blanksBefore := [] }] else [g]

variable {offsets : List Nat}

theorem withStars_append (xs ys : List Glyph) :
    withStars offsets (xs ++ ys) = withStars offsets xs ++ withStars offsets ys :=
  List.flatMap_append

theorem withStars_cons_of_mem {g : Glyph} (h : g.offset ∈ offsets) (rest : List Glyph) :
    withStars offsets (g :: rest) =
      { g with char := '*' } :: { g with blanksBefore := [] } :: withStars offsets rest := by
  rw [withStars, List.flatMap_cons, if_pos h]
  rfl

theorem withStars_cons_of_notMem {g : Glyph} (h : g.offset ∉ offsets) (rest : List Glyph) :
    withStars offsets (g :: rest) = g :: withStars offsets rest := by
  rw [withStars, List.flatMap_cons, if_neg h]
  rfl

theorem withStars_of_forall_notMem {xs : List Glyph} (h : ∀ x ∈ xs, x.offset ∉ offsets) :
    withStars offsets xs = xs := by
  induction xs with
  | nil => rfl
  | cons x xs ih =>
    obtain ⟨hx, hxs⟩ := List.forall_mem_cons.1 h
    rw [withStars_cons_of_notMem hx, ih hxs]

/-- Glyphs stay as they are up to the first star. -/
theorem withStars_cases (offsets : List Nat) (xs : List Glyph) :
    withStars offsets xs = xs ∨ ∃ ys g zs zs', xs = ys ++ zs ∧ g.char = '*' ∧
      withStars offsets xs = ys ++ g :: zs' := by
  induction xs with
  | nil => exact .inl rfl
  | cons x xs ih =>
    by_cases hx : x.offset ∈ offsets
    · exact .inr ⟨[], _, x :: xs, _, rfl, rfl, withStars_cons_of_mem hx xs⟩
    · rw [withStars_cons_of_notMem hx]
      rcases ih with hsame | ⟨ys, g, zs, zs', rfl, hg, hstars⟩
      · exact .inl (by rw [hsame])
      · exact .inr ⟨x :: ys, g, zs, zs', rfl, hg, by rw [hstars, List.cons_append]⟩

/-- **Stars in the text are stars among the glyphs**, if none of them is to stand before a blank. -/
theorem unplaced_ofTextFrom_writeStars {offset : Nat} {blanks text : List Char}
    (h : ∀ o ∈ offsets, offset ≤ o → ∃ g ∈ ofTextFrom offset blanks text, g.offset = o)
    (offset' : Nat) :
    (ofTextFrom offset' blanks (writeStars offsets offset text)).map unplaced =
      (withStars offsets (ofTextFrom offset blanks text)).map unplaced := by
  induction text generalizing offset offset' blanks with
  | nil => rfl
  | cons c rest ih =>
    have hsize := c.utf8Size_pos
    by_cases hc : isBlank c = true
    · have hglyphs : ofTextFrom offset blanks (c :: rest) =
          ofTextFrom (offset + c.utf8Size) (blanks ++ [c]) rest := by
        rw [ofTextFrom, if_pos hc]
      rw [hglyphs] at h ⊢
      have hnone : offset ∉ offsets := by
        intro hoffset
        obtain ⟨g, hg, hgo⟩ := h offset hoffset (Nat.le_refl _)
        have hle := le_offset_of_mem_ofTextFrom hg
        omega
      rw [writeStars, if_neg hnone, ofTextFrom, if_pos hc]
      exact ih (fun o ho hle => h o ho (by omega)) _
    · have hglyphs : ofTextFrom offset blanks (c :: rest) =
          ⟨c, offset, blanks⟩ :: ofTextFrom (offset + c.utf8Size) [] rest := by
        rw [ofTextFrom, if_neg hc]
      rw [hglyphs] at h ⊢
      have hrest : ∀ o ∈ offsets, offset + c.utf8Size ≤ o →
          ∃ g ∈ ofTextFrom (offset + c.utf8Size) [] rest, g.offset = o := by
        intro o ho hle
        obtain ⟨g, hg, rfl⟩ := h o ho (by omega)
        rcases List.mem_cons.1 hg with rfl | hg
        · dsimp only at hle
          omega
        · exact ⟨g, hg, rfl⟩
      have hstar : ¬isBlank '*' := by decide
      by_cases hmem : offset ∈ offsets
      · rw [writeStars, if_pos hmem, withStars_cons_of_mem hmem, ofTextFrom, if_neg hstar,
          ofTextFrom, if_neg hc, List.map_cons, List.map_cons, List.map_cons, List.map_cons, ih hrest]
        rfl
      · rw [writeStars, if_neg hmem, withStars_cons_of_notMem hmem, ofTextFrom, if_neg hc,
          List.map_cons, List.map_cons, ih hrest]
        rfl

end Text.Glyph

namespace Token

open Keyword (Separates)

/-! ### Where products are implied -/

/-- The offsets of the products that are not written. -/
def impliedOffsets : List Token → List Nat
  | t :: u :: ts =>
    if t = impliedProduct u.offset then u.offset :: impliedOffsets (u :: ts)
    else impliedOffsets (u :: ts)
  | _ => []

/-- Where offsets rise, every product is written. -/
theorem impliedOffsets_eq_nil {ts : List Token} (h : ts.Pairwise (·.offset < ·.offset)) :
    impliedOffsets ts = [] := by
  fun_induction impliedOffsets ts with
  | case1 u ts ih =>
    have hlt : (impliedProduct u.offset).offset < u.offset := (List.pairwise_cons.1 h).1 u (by simp)
    exact absurd hlt (Nat.lt_irrefl _)
  | case2 t u ts hne ih => exact ih (List.pairwise_cons.1 h).2
  | case3 ts hshort => rfl

theorem exists_insertProducts_cons (previous : Option Kind) (t : Token) (ts : List Token) :
    ∃ u us, insertProducts previous (t :: ts) = u :: us ∧ u.offset = t.offset := by
  unfold insertProducts
  split
  · exact ⟨_, _, rfl, rfl⟩
  · exact ⟨_, _, rfl, rfl⟩

/-- A token that is read does not stand where the next one does. -/
theorem ne_impliedProduct {t v : Token} {ts : List Token} {previous : Option Kind}
    (h : (t :: ts).Pairwise (·.offset < ·.offset)) (hv : v ∈ (insertProducts previous ts).head?) :
    t ≠ impliedProduct v.offset := by
  cases ts with
  | nil => cases hv
  | cons u ts =>
    obtain ⟨w, ws, hw, hoffset⟩ := exists_insertProducts_cons previous u ts
    have hlt : t.offset < u.offset := (List.pairwise_cons.1 h).1 u List.mem_cons_self
    rw [hw] at hv
    obtain rfl := Option.some.inj hv
    intro ht
    have hsame : t.offset = w.offset := by rw [ht, impliedProduct]
    omega

/-- **A product is implied before a value that follows a value, and nowhere else.** -/
theorem impliedOffsets_insertProducts_cons {t : Token} {ts : List Token} (previous : Option Kind)
    (h : (t :: ts).Pairwise (·.offset < ·.offset)) :
    impliedOffsets (insertProducts previous (t :: ts)) =
      (if t.isValue && previous.any (·.isValue) then [t.offset] else []) ++
        impliedOffsets (insertProducts (some t.kind) ts) := by
  have hread : impliedOffsets (t :: insertProducts (some t.kind) ts) =
      impliedOffsets (insertProducts (some t.kind) ts) := by
    cases hrest : insertProducts (some t.kind) ts with
    | nil => rfl
    | cons v vs => rw [impliedOffsets, if_neg (ne_impliedProduct h (by rw [hrest]; rfl))]
  rw [insertProducts]
  split
  · rw [impliedOffsets, if_pos rfl, hread]
    rfl
  · rw [hread]
    rfl

theorem exists_of_mem_impliedOffsets {o : Nat} {previous : Option Kind} {ts : List Token}
    (h : ts.Pairwise (·.offset < ·.offset))
    (ho : o ∈ impliedOffsets (insertProducts previous ts)) : ∃ t ∈ ts, t.offset = o := by
  induction ts generalizing previous with
  | nil => cases ho
  | cons t ts ih =>
    rw [impliedOffsets_insertProducts_cons previous h, List.mem_append] at ho
    rcases ho with hfirst | hrest
    · split at hfirst
      · exact ⟨t, by simp, (List.mem_singleton.1 hfirst).symm⟩
      · cases hfirst
    · obtain ⟨u, hu, huo⟩ := ih (List.pairwise_cons.1 h).2 hrest
      exact ⟨u, List.mem_cons_of_mem t hu, huo⟩

/-- Once the products are there, none is missing. -/
theorem insertProducts_insertProducts (previous : Option Kind) (ts : List Token) :
    insertProducts previous (insertProducts previous ts) = insertProducts previous ts := by
  induction ts generalizing previous with
  | nil => rfl
  | cons t ts ih =>
    by_cases h : (t.isValue && previous.any (·.isValue)) = true
    · have hproduct : insertProducts previous (t :: ts) =
          impliedProduct t.offset :: t :: insertProducts (some t.kind) ts := by
        rw [insertProducts, if_pos h]
      have hproductValue : ¬(impliedProduct t.offset).isValue := Bool.false_ne_true
      have hnone : ¬(t.isValue && (none : Option Kind).any (·.isValue)) = true := by simp
      rw [hproduct, insertProducts_cons hproductValue, insertProducts, if_neg hnone, ih]
    · have hread : insertProducts previous (t :: ts) = t :: insertProducts (some t.kind) ts := by
        rw [insertProducts, if_neg h]
      rw [hread, insertProducts, if_neg h, ih]

/-- Nothing but products is inserted. -/
theorem mem_of_mem_insertProducts {t : Token} {previous : Option Kind} {ts : List Token}
    (h : t ∈ insertProducts previous ts) (ht : t.kind ≠ .binary) : t ∈ ts := by
  obtain ⟨k, hk⟩ := List.mem_iff_getElem?.1 h
  rcases getElem?_insertProducts hk with hmem | ⟨⟨offset, rfl⟩, -⟩
  · exact hmem
  · exact absurd rfl ht

/-! ### Reading in front of a star -/

theorem separates_star : Separates '*' := by
  decide

/-- A lexeme that ends before the stars is scanned as if they were not there. -/
theorem Lexeme.scan_withStars {x x' : Glyph} {xs ys : List Glyph} {offsets : List Nat}
    (hchar : x.char = x'.char) (h : (scan x (xs ++ ys)).width ≤ xs.length + 1) :
    scan x' (xs ++ Glyph.withStars offsets ys) = scan x (xs ++ ys) := by
  rcases Glyph.withStars_cases offsets ys with
    hsame | ⟨zs, g, rest, rest', rfl, hg, hstars⟩
  · rw [hsame]
    exact scan_congr (by rw [List.map_cons, List.map_cons, hchar])
  · have hsep : Separates g.char := hg ▸ separates_star
    rw [← List.append_assoc] at h ⊢
    have hle : (scan x (xs ++ zs ++ rest)).width ≤ (xs ++ zs).length + 1 := by
      rw [List.length_append]
      omega
    rw [hstars, ← List.append_assoc, scan_append_cons hsep, ← scan_of_append hle]
    exact scan_congr (by rw [List.map_cons, List.map_cons, hchar])

/-- **A token is read in front of stars as it is without them**, if none stands inside it. -/
theorem Cuts.token_withStars {previous previous' : Option Kind} {g g' : Glyph} {rest : List Glyph}
    {t : Token} {known : Option Variable} {us : List Token} {offsets : List Nat}
    (ht : ofLexeme none previous g rest (Lexeme.scan g rest) = .ok (t, known))
    (hprevious : previous = previous' ∨ t.isValue) (hchar : g.char = g'.char)
    (hoffset : g.offset = g'.offset)
    (hrun : ∀ x ∈ rest.take ((Lexeme.scan g rest).width - 1), x.offset ∉ offsets)
    (hrest : Cuts (some t.kind)
      (Glyph.withStars offsets (rest.drop ((Lexeme.scan g rest).width - 1))) us []) :
    Cuts previous' (g' :: Glyph.withStars offsets rest) (t :: us) [] := by
  have hwidth := Lexeme.width_scan_le g rest
  generalize hn : (Lexeme.scan g rest).width - 1 = n at hrun hrest
  have hlength : (rest.take n).length = n := List.length_take_of_le (by omega)
  have hstars : Glyph.withStars offsets rest =
      rest.take n ++ Glyph.withStars offsets (rest.drop n) := by
    nth_rewrite 1 [← List.take_append_drop n rest]
    rw [Glyph.withStars_append, Glyph.withStars_of_forall_notMem hrun]
  have hscan : Lexeme.scan g' (Glyph.withStars offsets rest) = Lexeme.scan g rest := by
    rw [hstars, Lexeme.scan_withStars hchar, List.take_append_drop]
    rw [List.take_append_drop, hlength]
    omega
  have hsame : (rest.take n).map Glyph.unplaced =
      ((Glyph.withStars offsets rest).take n).map Glyph.unplaced := by
    rw [hstars, List.take_left' hlength]
  rw [← hn] at hsame
  obtain ⟨known', ht'⟩ := ofLexeme_of_run_eq ht hprevious hchar hsame
  have htoken : (⟨t.kind, t.literal, g'.offset⟩ : Token) = t := by
    rw [← hoffset, ← offset_of_ofLexeme ht]
  rw [htoken, ← hscan] at ht'
  refine .token ht' ?_
  rw [hscan, hn, hstars, List.drop_left' hlength]
  exact hrest

/-! ### Writing all stars -/

/-- Among these glyphs, stars are to be written where products are implied among the tokens. -/
def StarsDue (offsets : List Nat) (previous : Option Kind) (xs : List Glyph) (ts : List Token) :
    Prop :=
  ∀ x ∈ xs, x.offset ∈ offsets ↔ x.offset ∈ impliedOffsets (insertProducts previous ts)

namespace StarsDue

variable {offsets : List Nat} {previous : Option Kind} {g : Glyph} {rest : List Glyph} {t : Token}
  {ts : List Token}

/-- A star stands before the first glyph if its token is a value behind a value. -/
theorem mem_iff (h : StarsDue offsets previous (g :: rest) (t :: ts))
    (hts : (t :: ts).Pairwise (·.offset < ·.offset)) (hoffset : t.offset = g.offset) :
    g.offset ∈ offsets ↔ (t.isValue && previous.any (·.isValue)) = true := by
  rw [h g List.mem_cons_self, impliedOffsets_insertProducts_cons previous hts, List.mem_append,
    or_iff_left, hoffset]
  · split <;> simp [*]
  · intro hmem
    obtain ⟨u, hu, hug⟩ := exists_of_mem_impliedOffsets (List.pairwise_cons.1 hts).2 hmem
    have hlt := (List.pairwise_cons.1 hts).1 u hu
    omega

/-- Behind the first glyph, the stars are those of the tokens behind the first. -/
theorem behind (h : StarsDue offsets previous (g :: rest) (t :: ts))
    (hts : (t :: ts).Pairwise (·.offset < ·.offset)) (hoffset : t.offset = g.offset)
    (hrest : ∀ x ∈ rest, g.offset < x.offset) : StarsDue offsets (some t.kind) rest ts := by
  intro x hx
  have hlt := hrest x hx
  rw [h x (List.mem_cons_of_mem g hx), impliedOffsets_insertProducts_cons previous hts,
    List.mem_append, or_iff_right]
  split
  · rw [List.mem_singleton]
    omega
  · exact List.not_mem_nil

/-- No star stands before all of the tokens. -/
theorem notMem_of_lt (h : StarsDue offsets previous rest ts)
    (hts : ts.Pairwise (·.offset < ·.offset)) {x : Glyph} (hx : x ∈ rest)
    (hlt : ∀ u ∈ ts, x.offset < u.offset) : x.offset ∉ offsets := by
  intro hmem
  obtain ⟨u, hu, hux⟩ := exists_of_mem_impliedOffsets hts ((h x hx).1 hmem)
  have := hlt u hu
  omega

end StarsDue

/-- **Where every implied product is written out, the tokens are read as they are.** -/
theorem Cuts.withStars {previous : Option Kind} {xs zs : List Glyph} {ts : List Token}
    (h : Cuts previous xs ts zs) (hzs : zs = []) (hxs : xs.Pairwise (·.offset < ·.offset))
    {offsets : List Nat} (hstars : StarsDue offsets previous xs ts) :
    Cuts previous (Glyph.withStars offsets xs) (insertProducts previous ts) [] := by
  induction h with
  | done =>
    subst hzs
    exact .done
  | @token previous g rest rest' t ts known ht hrest ih =>
    subst hzs
    have hts : (t :: ts).Pairwise (·.offset < ·.offset) :=
      (Cuts.token ht hrest).pairwise_offset hxs
    have hoffset : t.offset = g.offset := offset_of_ofLexeme ht
    obtain ⟨hbefore, hrise⟩ := List.pairwise_cons.1 hxs
    have hbehind := hstars.behind hts hoffset hbefore
    have hrun : ∀ x ∈ rest.take ((Lexeme.scan g rest).width - 1), x.offset ∉ offsets := by
      intro x hx
      refine hbehind.notMem_of_lt (List.pairwise_cons.1 hts).2 (List.mem_of_mem_take hx) ?_
      intro u hu
      obtain ⟨y, hy, hyu⟩ := List.mem_map.1
        (hrest.offsets_sublist.subset (List.mem_map_of_mem hu))
      rw [← List.take_append_drop ((Lexeme.scan g rest).width - 1) rest] at hrise
      rw [← hyu]
      exact (List.pairwise_append.1 hrise).2.2 x hx y hy
    have htail := ih rfl (hrise.sublist (List.drop_sublist _ rest))
      fun x hx => hbehind x (List.mem_of_mem_drop hx)
    by_cases hproduct : (t.isValue && previous.any (·.isValue)) = true
    · have hvalue : t.isValue := (Bool.and_eq_true_iff.1 hproduct).1
      rw [Glyph.withStars_cons_of_mem ((hstars.mem_iff hts hoffset).2 hproduct), insertProducts,
        if_pos hproduct, hoffset]
      exact (Cuts.mark (.operator .mul) trivial rfl _).append
        (token_withStars ht (.inr hvalue) rfl rfl hrun htail)
    · have hnone : g.offset ∉ offsets := mt (hstars.mem_iff hts hoffset).1 hproduct
      rw [Glyph.withStars_cons_of_notMem hnone, insertProducts, if_neg hproduct]
      exact token_withStars ht (.inl rfl) rfl rfl hrun htail

end Token

end Branchwise
