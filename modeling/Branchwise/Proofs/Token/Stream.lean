/-
The tokens that are given, told by their neighbours.

What is read and what is given are two lists, and `place` says where in the second the tokens of the
first are.  Two tokens that are read one after the other are given one after the other, unless both
are values: then one product stands between them (`place_succ`).  All else follows from that gap and
from the order of offsets.  A place where nothing was read is the one before a token that was
(`exists_place`), and only there does a product stand at the offset of the token behind it.

A minus subtracts or negates by what was read before it, and that is what is given before it as
well, for nothing is implied before a minus.
-/
import Mathlib
import Branchwise.Proofs.Token.Lossless
import Branchwise.Proofs.Token.Reader

namespace Branchwise

open Text (Glyph strip)

namespace Token

/-! ### Reading up to an error -/

/-- What is given up to an error is what was read up to it, with the implied products. -/
theorem given_withProducts (previous : Option Kind) (steps : List Step) :
    given (withProducts previous steps) = insertProducts previous (given steps) := by
  induction steps generalizing previous with
  | nil => rfl
  | cons step rest ih =>
    unfold withProducts
    cases hresult : step.result with
    | error e =>
      dsimp only
      rw [given_cons, given_cons, hresult, ih]
      rfl
    | ok t =>
      dsimp only
      rw [given_cons step rest, hresult]
      show _ = insertProducts previous (t :: given rest)
      rw [insertProducts]
      split
      · rw [given_cons, given_cons, hresult, ih]
        rfl
      · rw [given_cons, hresult, ih]
        rfl

/-- **The tokens up to an error are cut from the beginning of the text.** -/
theorem exists_cuts_given (known : Option Variable) (previous : Option Kind)
    (glyphs : List Glyph) :
    ∃ zs, Cuts previous glyphs (given (readFrom known previous glyphs)) zs := by
  fun_induction readFrom known previous glyphs with
  | case1 known previous => exact ⟨[], .done⟩
  | case2 known previous g rest lexeme e => exact ⟨g :: rest, .done⟩
  | case3 known previous g rest lexeme t known' ht =>
    rename_i ih
    obtain ⟨zs, hcuts⟩ := ih
    obtain ⟨⟨first, hfirst⟩, -, -⟩ := ofLexeme_eq_ok_iff.1 ht
    exact ⟨zs, .token hfirst hcuts⟩

/-! ### Where a token that is read is given -/

/-- The place at which the token with this number is given, if the last token before was of the
kind `previous`. -/
def place (previous : Option Kind) : List Token → Nat → Nat
  | [], j => j
  | t :: _, 0 => if t.isValue && previous.any (·.isValue) then 1 else 0
  | t :: ts, j + 1 =>
    place (some t.kind) ts j + if t.isValue && previous.any (·.isValue) then 2 else 1

variable {previous : Option Kind} {ts : List Token} {t v w : Token} {j k : Nat}

theorem place_none_zero (ts : List Token) : place none ts 0 = 0 := by
  cases ts with
  | nil => rfl
  | cons t ts => simp [place]

theorem place_strictMono (previous : Option Kind) (ts : List Token) :
    StrictMono (place previous ts) := by
  refine strictMono_nat_of_lt_succ fun j => ?_
  induction ts generalizing previous j with
  | nil => exact Nat.lt_succ_self j
  | cons t ts ih =>
    cases j with
    | zero =>
      rw [place, place]
      split <;> omega
    | succ j =>
      rw [place, place]
      exact Nat.add_lt_add_right (ih (some t.kind) j) _

theorem getElem?_place (previous : Option Kind) (ts : List Token) (j : Nat) :
    (insertProducts previous ts)[place previous ts j]? = ts[j]? := by
  induction ts generalizing previous j with
  | nil => simp [insertProducts]
  | cons t ts ih =>
    unfold insertProducts
    cases j with
    | zero =>
      rw [place]
      split <;> rfl
    | succ j =>
      rw [place, List.getElem?_cons_succ, ← ih (some t.kind) j]
      split <;> rfl

/-- **One product stands between two values, and nothing between other tokens.** -/
theorem place_succ (hv : ts[j]? = some v) (hw : ts[j + 1]? = some w) :
    place previous ts (j + 1) = place previous ts j + if v.isValue && w.isValue then 2 else 1 := by
  induction ts generalizing previous j with
  | nil => cases hv
  | cons t ts ih =>
    cases j with
    | succ j =>
      rw [place, place, ih hv hw]
      omega
    | zero =>
      obtain rfl : t = v := Option.some.inj hv
      obtain ⟨us, rfl⟩ : ∃ us, ts = w :: us := by
        cases ts with
        | nil => cases hw
        | cons u us => exact ⟨us, by rw [Option.some.inj hw]⟩
      have hfirst : place (some t.kind) (w :: us) 0 = if t.isValue && w.isValue then 1 else 0 := by
        rw [place, Bool.and_comm]
        rfl
      show place (some t.kind) (w :: us) 0 + _ = _
      rw [hfirst, place]
      split <;> split <;> rfl

/-- **What is given was read, or it is the product before what was read.** -/
theorem exists_place (hk : (insertProducts previous ts)[k]? = some t) :
    (∃ j, place previous ts j = k) ∨
      ∃ j w, ts[j]? = some w ∧ place previous ts j = k + 1 ∧ t = impliedProduct w.offset := by
  induction ts generalizing previous k with
  | nil => simp [insertProducts] at hk
  | cons u ts ih =>
    unfold insertProducts at hk
    by_cases hdue : (u.isValue && previous.any (·.isValue)) = true
    · rw [if_pos hdue] at hk
      have hzero : place previous (u :: ts) 0 = 1 := by rw [place, if_pos hdue]
      have hsucc (j : Nat) : place previous (u :: ts) (j + 1) = place (some u.kind) ts j + 2 := by
        rw [place, if_pos hdue]
      cases k with
      | zero => exact .inr ⟨0, u, rfl, hzero, (Option.some.inj hk).symm⟩
      | succ k =>
        cases k with
        | zero => exact .inl ⟨0, hzero⟩
        | succ k =>
          rcases ih hk with ⟨j, hj⟩ | ⟨j, w, hw, hj, ht⟩
          · exact .inl ⟨j + 1, by rw [hsucc, hj]⟩
          · exact .inr ⟨j + 1, w, hw, by rw [hsucc, hj], ht⟩
    · rw [if_neg hdue] at hk
      have hzero : place previous (u :: ts) 0 = 0 := by rw [place, if_neg hdue]
      have hsucc (j : Nat) : place previous (u :: ts) (j + 1) = place (some u.kind) ts j + 1 := by
        rw [place, if_neg hdue]
      cases k with
      | zero => exact .inl ⟨0, hzero⟩
      | succ k =>
        rcases ih hk with ⟨j, hj⟩ | ⟨j, w, hw, hj, ht⟩
        · exact .inl ⟨j + 1, by rw [hsucc, hj]⟩
        · exact .inr ⟨j + 1, w, hw, by rw [hsucc, hj], ht⟩

/-! ### What is read among what is given -/

/-- The tokens that are read are given at their places, and products at all others. -/
structure Interleaves (read emitted : List Token) (place : Nat → Nat) : Prop where
  /-- What is read is given in its order, and once. -/
  strictMono : StrictMono place
  /-- All that is read is given. -/
  released : ∀ j, emitted[place j]? = read[j]?
  /-- What was not read is a product at the offset of the token behind it, and nothing else is. -/
  implied_iff : ∀ k t, emitted[k]? = some t →
    ((∀ j, place j ≠ k) ↔ ∃ u, emitted[k + 1]? = some u ∧ t = impliedProduct u.offset)
  /-- It stands between two values that are read one after the other, and nothing else does. -/
  between_iff : ∀ k t, emitted[k]? = some t →
    ((∀ j, place j ≠ k) ↔ ∃ j v w, read[j]? = some v ∧ read[j + 1]? = some w ∧ v.isValue ∧
      w.isValue ∧ place j + 1 = k ∧ k + 1 = place (j + 1))
  /-- There is one between any two such values. -/
  between_values : ∀ j v w, read[j]? = some v → read[j + 1]? = some w → v.isValue → w.isValue →
    place (j + 1) = place j + 2

/-- A token that is read does not stand where the token given behind it does. -/
theorem offset_lt_of_place {u : Token} (h : ts.Pairwise (·.offset < ·.offset))
    (ht : ts[j]? = some t)
    (hu : (insertProducts previous ts)[place previous ts j + 1]? = some u) :
    t.offset < u.offset := by
  have hrise {i : Nat} {w : Token} (hw : ts[i]? = some w)
      (hlt : place previous ts j < place previous ts i) : t.offset < w.offset := by
    have hji := (place_strictMono previous ts).lt_iff_lt.1 hlt
    obtain ⟨hj, rfl⟩ := List.getElem?_eq_some_iff.1 ht
    obtain ⟨hi, rfl⟩ := List.getElem?_eq_some_iff.1 hw
    exact List.pairwise_iff_getElem.1 h j i hj hi hji
  rcases exists_place hu with ⟨i, hi⟩ | ⟨i, w, hw, hi, rfl⟩
  · have hread := getElem?_place previous ts i
    rw [hi, hu] at hread
    exact hrise hread.symm (by omega)
  · show t.offset < w.offset
    exact hrise hw (by omega)

theorem interleaves_insertProducts (h : ts.Pairwise (·.offset < ·.offset)) :
    Interleaves ts (insertProducts none ts) (place none ts) where
  strictMono := place_strictMono none ts
  released := getElem?_place none ts
  implied_iff k t hk := by
    refine ⟨?_, ?_⟩
    · intro hnone
      rcases exists_place hk with ⟨j, hj⟩ | ⟨j, w, hw, hj, ht⟩
      · exact absurd hj (hnone j)
      · refine ⟨w, ?_, ht⟩
        rw [← hj, getElem?_place, hw]
    · rintro ⟨u, hu, ht⟩ j rfl
      rw [getElem?_place] at hk
      have hlt := offset_lt_of_place h hk hu
      rw [ht] at hlt
      exact Nat.lt_irrefl _ hlt
  between_iff k t hk := by
    refine ⟨?_, ?_⟩
    · intro hnone
      rcases exists_place hk with ⟨j, hj⟩ | ⟨j, w, hw, hj, -⟩
      · exact absurd hj (hnone j)
      · cases j with
        | zero =>
          rw [place_none_zero] at hj
          cases hj
        | succ j =>
          obtain ⟨hlt, -⟩ := List.getElem?_eq_some_iff.1 hw
          have hv := List.getElem?_eq_getElem (Nat.lt_of_succ_lt hlt)
          have hgap : place none ts (j + 1) = place none ts j + _ := place_succ hv hw
          have hne := hnone j
          by_cases hvalues : (ts[j].isValue && w.isValue) = true
          · obtain ⟨hvalue, hvalue'⟩ := Bool.and_eq_true_iff.1 hvalues
            rw [if_pos hvalues] at hgap
            exact ⟨j, _, w, hv, hw, hvalue, hvalue', by omega, hj.symm⟩
          · rw [if_neg hvalues] at hgap
            omega
    · rintro ⟨j, v, w, -, -, -, -, hbefore, hbehind⟩ i hi
      have hji := (place_strictMono none ts).lt_iff_lt (a := j) (b := i)
      have hij := (place_strictMono none ts).lt_iff_lt (a := i) (b := j + 1)
      omega
  between_values j v w hv hw hvalue hvalue' := by
    rw [place_succ hv hw, if_pos (Bool.and_eq_true_iff.2 ⟨hvalue, hvalue'⟩)]

/-! ### Neighbours -/

/-- A value is not given right behind a value. -/
theorem not_isValue_of_head? {u : Token} (hu : u ∈ (insertProducts previous ts).head?)
    (hvalue : u.isValue) : ¬ previous.any (·.isValue) := by
  cases ts with
  | nil => cases hu
  | cons t ts =>
    unfold insertProducts at hu
    by_cases hdue : (t.isValue && previous.any (·.isValue)) = true
    · rw [if_pos hdue] at hu
      obtain rfl := Option.some.inj hu
      cases hvalue
    · rw [if_neg hdue] at hu
      obtain rfl := Option.some.inj hu
      simpa [hvalue] using hdue

/-- **No two values are neighbours.** -/
theorem isChain_insertProducts (previous : Option Kind) (ts : List Token) :
    (insertProducts previous ts).IsChain fun t u => ¬(t.isValue ∧ u.isValue) := by
  induction ts generalizing previous with
  | nil => exact List.isChain_nil
  | cons t ts ih =>
    have hread : (t :: insertProducts (some t.kind) ts).IsChain
        fun t u => ¬(t.isValue ∧ u.isValue) := by
      refine List.isChain_cons.2 ⟨?_, ih (some t.kind)⟩
      rintro u hu ⟨ht, hvalue⟩
      exact not_isValue_of_head? hu hvalue ht
    unfold insertProducts
    split
    · refine List.isChain_cons.2 ⟨?_, hread⟩
      rintro u - ⟨hproduct, -⟩
      cases hproduct
    · exact hread

/-! ### Minus -/

/-- Nothing but the operator is written as a minus. -/
theorem kind_of_literal_eq_minus {known : Option Variable} {g : Glyph} {rest : List Glyph}
    (hclean : ∀ x ∈ g :: rest, x.Clean)
    (h : ofLexeme none previous g rest (Lexeme.scan g rest) = .ok (t, known))
    (hminus : t.literal = "-") : t.kind = if endsValue previous then .binary else .unary := by
  obtain ⟨p, hp, hwrites⟩ := exists_writes_of_ofLexeme hclean h
  have htext : p.text = ['-'] := by
    rw [← hwrites.strip_literal hp, hminus]
    decide
  cases hp with
  | @keyword _ word =>
    have hword : word = .operator .sub := Keyword.spelling_injective (String.toList_inj.1 htext)
    rw [hwrites.1, hword]
    rfl
  | letter hstart hnone hletter =>
    obtain rfl := (List.cons.inj htext).1
    exact absurd hletter (by decide)
  | numeral hstart hnone hnumeral =>
    obtain ⟨c, digits, rfl, hc⟩ := hnumeral.exists_cons
    obtain rfl := (List.cons.inj htext).1
    exact absurd hc (by decide)

/-- **A minus subtracts from the value or the group that is given before it, and negates anywhere
else.** -/
theorem Cuts.kind_of_minus {xs zs : List Glyph} (h : Cuts previous xs ts zs)
    (hclean : ∀ x ∈ xs, x.Clean) {before after : List Token}
    (hsplit : insertProducts previous ts = before ++ t :: after) (hminus : t.literal = "-") :
    t.kind = if endsValue (lastKind previous before) then .binary else .unary := by
  induction h generalizing before with
  | done => simp [insertProducts] at hsplit
  | @token previous g rest rest' u ts known hu hrest ih =>
    have hbehind : ∀ x ∈ rest.drop ((Lexeme.scan g rest).width - 1), x.Clean :=
      fun x hx => hclean x (List.mem_cons_of_mem g (List.mem_of_mem_drop hx))
    unfold insertProducts at hsplit
    by_cases hdue : (u.isValue && previous.any (·.isValue)) = true
    · rw [if_pos hdue] at hsplit
      cases before with
      | nil =>
        rw [← (List.cons.inj hsplit).1] at hminus
        simp [impliedProduct] at hminus
      | cons product before =>
        obtain ⟨-, hread⟩ := List.cons.inj hsplit
        cases before with
        | nil =>
          -- A minus is no value, so no product stands before it.
          rw [(List.cons.inj hread).1] at hu hdue
          have hvalue : t.kind.isValue := (Bool.and_eq_true_iff.1 hdue).1
          rw [kind_of_literal_eq_minus hclean hu hminus] at hvalue
          split at hvalue <;> cases hvalue
        | cons v before =>
          obtain ⟨rfl, hsplit'⟩ := List.cons.inj hread
          exact ih hbehind hsplit'
    · rw [if_neg hdue] at hsplit
      cases before with
      | nil =>
        rw [(List.cons.inj hsplit).1] at hu
        exact kind_of_literal_eq_minus hclean hu hminus
      | cons v before =>
        obtain ⟨rfl, hsplit'⟩ := List.cons.inj hsplit
        exact ih hbehind hsplit'

theorem endsValue_lastKind_none (before : List Token) :
    endsValue (lastKind none before) =
      before.getLast?.any fun u => u.isValue || u.kind = .rightParen := by
  rcases List.eq_nil_or_concat' before with rfl | ⟨init, u, rfl⟩
  · rfl
  · rw [lastKind_concat, List.getLast?_concat]
    rfl

/-- **What is read of a formula is given in its order, with products between.** -/
theorem exists_interleaves (formula : String) :
    ∃ read last place, Reader.Run (.ofText formula.toList) read (steps formula) last ∧
      Interleaves read (given (steps formula)) place := by
  obtain ⟨last, hrun, -⟩ := Reader.exists_run_readFrom none none (Glyph.ofText formula.toList)
  obtain ⟨zs, hcuts⟩ := exists_cuts_given none none (Glyph.ofText formula.toList)
  have hoffsets := hcuts.pairwise_offset (Glyph.pairwise_offset_ofTextFrom 0 [] formula.toList)
  have hinterleaves := interleaves_insertProducts hoffsets
  rw [← given_withProducts] at hinterleaves
  exact ⟨_, last, _, hrun, hinterleaves⟩

/-- **The tokens of a formula are those that are read, in their order, and the products between two
values.**  No two values are neighbours, and a minus goes by its neighbour to the left.  This holds
of the tokens before an error as well. -/
theorem reader_gives_what_it_reads (formula : String) :
    ∃ read last place, Reader.Run (.ofText formula.toList) read (steps formula) last ∧
      Interleaves read (given (steps formula)) place ∧
      (given (steps formula)).IsChain (fun t u => ¬(t.isValue ∧ u.isValue)) ∧
      ∀ before t after, given (steps formula) = before ++ t :: after → t.literal = "-" →
        t.kind = if before.getLast?.any (fun u => u.isValue || u.kind = .rightParen) then .binary
          else .unary := by
  obtain ⟨read, last, place, hrun, hinterleaves⟩ := exists_interleaves formula
  obtain ⟨zs, hcuts⟩ := exists_cuts_given none none (Glyph.ofText formula.toList)
  refine ⟨read, last, place, hrun, hinterleaves, ?_⟩
  rw [steps, given_withProducts]
  refine ⟨isChain_insertProducts none _, ?_⟩
  intro before t after hsplit hminus
  rw [← endsValue_lastKind_none]
  exact hcuts.kind_of_minus (fun x => Glyph.clean_of_mem_ofText) hsplit hminus

end Token

end Branchwise
