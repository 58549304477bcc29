/-
The search accepts what the grammar produces.

Both directions go by the width of the window.  A tree that is found is built of a shape that
fits, so it is grammatical and spells the window.  A tree that exists has a shape that some
rule lists, with children that are found by induction; then the search cannot fail, for it
fails only after every shape did.  It may well find another tree than that one, and which one
it finds is the business of precedence.
-/
import Branchwise.Proofs.Expr.Memo
import Branchwise.Proofs.Expr.Rule

namespace Branchwise

variable {tokens : Array Token} {w : Window}

/-! ### Trying alternatives -/

theorem firstM_eq_findSome? {α β : Type} (f : α → Option β) (xs : List α) :
    xs.firstM f = xs.findSome? f := by
  induction xs with
  | nil => rfl
  | cons x xs ih =>
    rw [List.findSome?_cons, ← ih]
    show (f x <|> xs.firstM f) = _
    cases f x <;> rfl

/-- What a rule makes of a window. -/
def Rule.find? (tokens : Array Token) (w : Window) (rule : Rule) : Option Expr :=
  (rule.shapes tokens w).findSome? (Shape.build fun part => resolve? tokens part.1)

/-- The search takes the first rule that makes something of the window. -/
theorem resolve?_eq_findSome? (tokens : Array Token) (w : Window) :
    resolve? tokens w = Rule.all.findSome? (Rule.find? tokens w) := by
  rw [resolve?, firstM_eq_findSome?]
  simp only [firstM_eq_findSome?]
  rfl

theorem Rule.mem_all (rule : Rule) : rule ∈ Rule.all := by
  cases rule <;> decide

/-! ### What is found is a derivation -/

/-- What is built of a fitting shape is a derivation, if the children are. -/
theorem Shape.Fits.derivation {s : Shape w} {belongs : w.Part → Expr → Prop} {e : Expr}
    (hs : s.Fits tokens) (he : s.Matches belongs e)
    (hparts : ∀ (part : w.Part) (child : Expr), part.1.Within tokens → belongs part child →
      child.Grammatical ∧ child.tokens = part.1.slice tokens) :
    e.Grammatical ∧ e.tokens = w.slice tokens := by
  cases s with
  | value t =>
    obtain rfl := he
    exact ⟨hs.1, hs.2.symm⟩
  | call f opening argument closing =>
    obtain ⟨hf, hopens, hcloses, hin, hslice⟩ := hs
    obtain ⟨child, hchild, rfl⟩ := he
    obtain ⟨hgram, htokens⟩ := hparts argument child hin hchild
    exact ⟨⟨hf, hopens, hcloses, hgram⟩, by rw [hslice, ← htokens]; rfl⟩
  | call2 f opening first separator second closing =>
    obtain ⟨hf, hopens, hsep, hcloses, hin, hin', hslice⟩ := hs
    obtain ⟨child, child', hchild, hchild', rfl⟩ := he
    obtain ⟨hgram, htokens⟩ := hparts first child hin hchild
    obtain ⟨hgram', htokens'⟩ := hparts second child' hin' hchild'
    exact ⟨⟨hf, hopens, hsep, hcloses, hgram, hgram'⟩,
      by rw [hslice, ← htokens, ← htokens']; rfl⟩
  | unary op operand =>
    obtain ⟨hop, hin, hslice⟩ := hs
    obtain ⟨child, hchild, rfl⟩ := he
    obtain ⟨hgram, htokens⟩ := hparts operand child hin hchild
    exact ⟨⟨hop, hgram⟩, by rw [hslice, ← htokens]; rfl⟩
  | paren opening inner closing =>
    obtain ⟨hopens, hcloses, hin, hslice⟩ := hs
    obtain ⟨child, hchild, rfl⟩ := he
    obtain ⟨hgram, htokens⟩ := hparts inner child hin hchild
    exact ⟨⟨hopens, hcloses, hgram⟩, by rw [hslice, ← htokens]; rfl⟩
  | binary left op right =>
    obtain ⟨hop, hin, hin', hslice⟩ := hs
    obtain ⟨child, child', hchild, hchild', rfl⟩ := he
    obtain ⟨hgram, htokens⟩ := hparts left child hin hchild
    obtain ⟨hgram', htokens'⟩ := hparts right child' hin' hchild'
    exact ⟨⟨hop, hgram, hgram'⟩, by rw [hslice, ← htokens, ← htokens']; rfl⟩

/-- A tree that is found comes from a shape that fits, its children being found there too. -/
theorem exists_shape_of_find? {rule : Rule} {e : Expr} (hw : w.Within tokens)
    (h : rule.find? tokens w = some e) :
    ∃ s ∈ rule.shapes tokens w, s.Fits tokens ∧
      s.Matches (fun part child => resolve? tokens part.1 = some child) e := by
  obtain ⟨s, hs, hbuild⟩ := List.exists_of_findSome?_eq_some h
  exact ⟨s, hs, Rule.fits_of_mem_shapes hw hs, Shape.build_eq_some_iff.1 hbuild⟩

/-- **A tree that is found is a derivation of the window.** -/
theorem resolve?_sound (tokens : Array Token) (w : Window) (hw : w.Within tokens) {e : Expr}
    (h : resolve? tokens w = some e) : e.Grammatical ∧ e.tokens = w.slice tokens := by
  rw [resolve?_eq_findSome?] at h
  obtain ⟨rule, -, hrule⟩ := List.exists_of_findSome?_eq_some h
  obtain ⟨s, -, hfits, hmatches⟩ := exists_shape_of_find? hw hrule
  exact hfits.derivation hmatches fun part _ hin hchild =>
    resolve?_sound tokens part.1 hin hchild
termination_by w.width
decreasing_by exact part.2

/-! ### What is derivable is found -/

/-- A shape of a tree can be built if something is found for each child. -/
theorem Shape.Matches.exists_build {s : Shape w} {belongs belongs' : w.Part → Expr → Prop}
    {e : Expr} (he : s.Matches belongs e) (hgram : e.Grammatical)
    (hparts : ∀ (part : w.Part) (child : Expr), child.Grammatical → belongs part child →
      ∃ found, belongs' part found) :
    ∃ e', s.Matches belongs' e' := by
  cases s with
  | value t => exact ⟨_, rfl⟩
  | call f opening argument closing =>
    obtain ⟨child, hchild, rfl⟩ := he
    obtain ⟨-, -, -, hargument⟩ := hgram
    obtain ⟨found, hfound⟩ := hparts argument child hargument hchild
    exact ⟨_, found, hfound, rfl⟩
  | call2 f opening first separator second closing =>
    obtain ⟨child, child', hchild, hchild', rfl⟩ := he
    obtain ⟨-, -, -, -, hfirst, hsecond⟩ := hgram
    obtain ⟨found, hfound⟩ := hparts first child hfirst hchild
    obtain ⟨found', hfound'⟩ := hparts second child' hsecond hchild'
    exact ⟨_, found, found', hfound, hfound', rfl⟩
  | unary op operand =>
    obtain ⟨child, hchild, rfl⟩ := he
    obtain ⟨found, hfound⟩ := hparts operand child hgram.2 hchild
    exact ⟨_, found, hfound, rfl⟩
  | paren opening inner closing =>
    obtain ⟨child, hchild, rfl⟩ := he
    obtain ⟨-, -, hinner⟩ := hgram
    obtain ⟨found, hfound⟩ := hparts inner child hinner hchild
    exact ⟨_, found, hfound, rfl⟩
  | binary left op right =>
    obtain ⟨child, child', hchild, hchild', rfl⟩ := he
    obtain ⟨-, hleft, hright⟩ := hgram
    obtain ⟨found, hfound⟩ := hparts left child hleft hchild
    obtain ⟨found', hfound'⟩ := hparts right child' hright hchild'
    exact ⟨_, found, found', hfound, hfound', rfl⟩

/-- A shape that a rule lists and that can be built keeps the rule from failing. -/
theorem Rule.find?_isSome_of_matches {rule : Rule} {s : Shape w} {e : Expr}
    (hs : s ∈ rule.shapes tokens w)
    (he : s.Matches (fun part child => resolve? tokens part.1 = some child) e) :
    (rule.find? tokens w).isSome := by
  rw [find?, List.findSome?_isSome_iff]
  exact ⟨s, hs, by rw [Shape.build_eq_some_iff.2 he]; rfl⟩

/-- **The search finds a tree for every window that has one.** -/
theorem resolve?_complete (tokens : Array Token) (w : Window) (hw : w.Within tokens) {e : Expr}
    (he : e.Grammatical) (h : w.slice tokens = e.tokens) :
    ∃ e', resolve? tokens w = some e' := by
  obtain ⟨s, hs, hmatches⟩ := he.exists_shape hw h
  obtain ⟨e', he'⟩ := hmatches.exists_build he fun part child hchild hspells =>
    resolve?_complete tokens part.1 hspells.1 hchild hspells.2
  rw [resolve?_eq_findSome?, ← Option.isSome_iff_exists, List.findSome?_isSome_iff]
  exact ⟨e.rule, e.rule.mem_all, Rule.find?_isSome_of_matches hs he'⟩
termination_by w.width
decreasing_by exact part.2

/-- A rule succeeds on a window exactly if some tree over the window has its node on top. -/
theorem Rule.find?_isSome_iff {rule : Rule} (hw : w.Within tokens) :
    (rule.find? tokens w).isSome ↔
      ∃ e : Expr, e.rule = rule ∧ e.Grammatical ∧ e.tokens = w.slice tokens := by
  refine ⟨?_, ?_⟩
  · intro h
    obtain ⟨e, he⟩ := Option.isSome_iff_exists.1 h
    obtain ⟨s, hs, hfits, hmatches⟩ := exists_shape_of_find? hw he
    exact ⟨e, hmatches.rule_eq.trans (Rule.rule_eq_of_mem_shapes hs),
      hfits.derivation hmatches fun part _ hin hchild => resolve?_sound tokens part.1 hin hchild⟩
  · intro h
    obtain ⟨e, rfl, he, htokens⟩ := h
    obtain ⟨s, hs, hmatches⟩ := he.exists_shape hw htokens.symm
    obtain ⟨e', he'⟩ := hmatches.exists_build he fun part child hchild hspells =>
      resolve?_complete tokens part.1 hspells.1 hchild hspells.2
    exact Rule.find?_isSome_of_matches hs he'

theorem resolve?_isSome_iff (hw : w.Within tokens) :
    (∃ e, resolve? tokens w = some e) ↔ Derivable (w.slice tokens) := by
  refine ⟨?_, ?_⟩
  · intro h
    obtain ⟨e, he⟩ := h
    obtain ⟨hgram, htokens⟩ := resolve?_sound tokens w hw he
    rw [← htokens]
    exact hgram.derivable
  · intro h
    obtain ⟨e, hgram, htokens⟩ := derivable_iff_exists_tree.1 h
    exact resolve?_complete tokens w hw hgram htokens.symm

/-! ### All the tokens -/

theorem whole_within (tokens : Array Token) : (Window.mk 0 tokens.size).Within tokens :=
  Window.within_mk (Nat.zero_le _) (Nat.le_refl _)

/-- Parsing succeeds with the tree that the search finds for all the tokens. -/
theorem parse_eq_ok_iff_resolve? {ts : List Token} {e : Expr} :
    parse ts = .ok e ↔ resolve? ts.toArray ⟨0, ts.toArray.size⟩ = some e := by
  obtain ⟨hresult, -⟩ := Search.gives_resolve ts.toArray ⟨0, ts.toArray.size⟩ ∅
    (Search.honest_empty _)
  rw [← hresult, parse]
  rcases OptionT.run (Search.resolve ts.toArray ⟨0, ts.toArray.size⟩) ∅ with ⟨_ | e', memo⟩ <;>
    simp

theorem slice_whole_toArray (ts : List Token) :
    (Window.mk 0 ts.toArray.size).slice ts.toArray = ts :=
  Window.slice_whole ts.toArray

theorem parse_sound {ts : List Token} {e : Expr} (h : parse ts = .ok e) :
    e.Grammatical ∧ e.tokens = ts := by
  rw [parse_eq_ok_iff_resolve?] at h
  obtain ⟨hgram, htokens⟩ := resolve?_sound _ _ (whole_within ts.toArray) h
  exact ⟨hgram, htokens.trans (slice_whole_toArray ts)⟩

theorem exists_parse_iff {ts : List Token} : (∃ e, parse ts = .ok e) ↔ Derivable ts := by
  simp only [parse_eq_ok_iff_resolve?]
  rw [resolve?_isSome_iff (whole_within ts.toArray), slice_whole_toArray]

/-- **Parsing accepts exactly what the grammar produces, and its tree is a derivation of
exactly these tokens.** -/
theorem parse_accepts_iff_derivable (ts : List Token) :
    ((∃ e, parse ts = .ok e) ↔ Derivable ts) ∧
      ∀ e, parse ts = .ok e → e.Grammatical ∧ e.tokens = ts :=
  ⟨exists_parse_iff, fun _ => parse_sound⟩

end Branchwise
