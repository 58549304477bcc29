/-
The search finds the canonical tree.

A window is split at its operators in a fixed order, and the list of them does not look at
brackets.  It need not: a cut inside brackets leaves a side that is no expression, and a cut
outside brackets leaves two that are.  So the first split whose sides resolve is the first one
outside brackets, and the order of the list is the order of binding.  That the rule for a
leading minus comes before is what keeps a minus from being the start of a left operand.
-/
import Mathlib.Data.List.Basic
import Branchwise.Proofs.Expr.Acceptance
import Branchwise.Proofs.Expr.Canonical

namespace Branchwise

open Window

variable {tokens : Array Token} {w : Window}

/-! ### The order of the splits -/

/-- The level of a token that writes an operator of this binding. -/
def Operator.Binding.level : Operator.Binding → Nat
  | .sum => 1
  | .product => 2
  | .power => 3

/-- Of the operators at two places, the one at `i` is to be outermost. -/
def Outranks (tokens : Array Token) (i j : Nat) : Prop :=
  ∃ t u, tokens[i]? = some t ∧ tokens[j]? = some u ∧
    (t.level < u.level ∨ t.level = u.level ∧ if t.GroupsRight then i < j else j < i)

theorem pairwise_placesOf (binding : Operator.Binding) :
    (placesOf (operators tokens w) binding).Pairwise (· < ·) := by
  have hrange : (List.range' (w.start + 1) (w.width - 2)).Pairwise (· < ·) :=
    List.pairwise_lt_range'
  have hoperators : (operators tokens w).Pairwise fun a b => a.1 < b.1 := by
    refine List.Pairwise.filterMap _ ?_ hrange
    intro i j hij a ha b hb
    obtain ⟨_, -, rfl⟩ := Option.map_eq_some_iff.1 ha
    obtain ⟨_, -, rfl⟩ := Option.map_eq_some_iff.1 hb
    exact hij
  exact List.pairwise_map.2 (hoperators.filter _)

theorem level_of_mem_placesOf {binding : Operator.Binding} {i : Nat}
    (h : i ∈ placesOf (operators tokens w) binding) :
    ∃ t, tokens[i]? = some t ∧ t.level = binding.level := by
  simp only [placesOf, List.mem_map, List.mem_filter, decide_eq_true_eq, Prod.exists] at h
  obtain ⟨i, o, ⟨hmem, rfl⟩, rfl⟩ := h
  obtain ⟨-, -, t, ht, ho⟩ := mem_operators_iff.1 hmem
  refine ⟨t, ht, ?_⟩
  cases o <;> simp [Token.level, ho, Operator.binding, Operator.Binding.level]

theorem outranks_of_looser {looser tighter : Operator.Binding} {i j : Nat}
    (h : looser.level < tighter.level) (hi : i ∈ placesOf (operators tokens w) looser)
    (hj : j ∈ placesOf (operators tokens w) tighter) : Outranks tokens i j := by
  obtain ⟨t, ht, hlevel⟩ := level_of_mem_placesOf hi
  obtain ⟨u, hu, hlevel'⟩ := level_of_mem_placesOf hj
  exact ⟨t, u, ht, hu, .inl (by omega)⟩

theorem outranks_of_same {binding : Operator.Binding} {i j : Nat}
    (h : if binding.level = 3 then i < j else j < i)
    (hi : i ∈ placesOf (operators tokens w) binding)
    (hj : j ∈ placesOf (operators tokens w) binding) : Outranks tokens i j := by
  obtain ⟨t, ht, hlevel⟩ := level_of_mem_placesOf hi
  obtain ⟨u, hu, hlevel'⟩ := level_of_mem_placesOf hj
  refine ⟨t, u, ht, hu, .inr ⟨by omega, ?_⟩⟩
  simpa only [Token.groupsRight_iff_level, hlevel] using h

/-- The splits are listed with the outermost operator first. -/
theorem pairwise_splits (tokens : Array Token) (w : Window) :
    (splits tokens w).Pairwise (Outranks tokens) := by
  have hreverse {binding : Operator.Binding} (hb : binding.level ≠ 3) :
      (placesOf (operators tokens w) binding).reverse.Pairwise (Outranks tokens) := by
    refine List.pairwise_reverse.2 ((pairwise_placesOf binding).imp_of_mem ?_)
    intro i j hi hj hij
    exact outranks_of_same (by rwa [if_neg hb]) hj hi
  have hpower : (placesOf (operators tokens w) .power).Pairwise (Outranks tokens) := by
    refine (pairwise_placesOf .power).imp_of_mem ?_
    intro i j hi hj hij
    exact outranks_of_same (by rwa [if_pos (by decide)]) hi hj
  refine List.pairwise_append.2 ⟨List.pairwise_append.2 ⟨hreverse (by decide),
    hreverse (by decide), ?_⟩, hpower, ?_⟩
  · intro i hi j hj
    exact outranks_of_looser (by decide) (List.mem_reverse.1 hi) (List.mem_reverse.1 hj)
  · intro i hi j hj
    rcases List.mem_append.1 hi with hi | hi
    · exact outranks_of_looser (by decide) (List.mem_reverse.1 hi) hj
    · exact outranks_of_looser (by decide) (List.mem_reverse.1 hi) hj

/-! ### The split that is taken -/

/-- The operation whose operator stands at `i`, if both of its sides resolve. -/
def binaryAt? (tokens : Array Token) (w : Window) (i : Nat) : Option Expr :=
  (binaryShape? tokens w i).bind (Shape.build fun part => resolve? tokens part.1)

theorem find?_binary_eq (tokens : Array Token) (w : Window) :
    Rule.find? tokens w .binary = (splits tokens w).findSome? (binaryAt? tokens w) := by
  show ((splits tokens w).filterMap (binaryShape? tokens w)).findSome? _ = _
  rw [← List.head?_filterMap, ← List.head?_filterMap, List.filterMap_filterMap]
  rfl

/-- A split succeeds if both of its sides are expressions. -/
theorem binaryAt?_isSome (hw : w.Within tokens) {i : Nat} {t : Token} (hi : w.start ≤ i)
    (hi' : i < w.stop) (ht : tokens[i]? = some t)
    (hleft : Derivable ((Window.mk w.start i).slice tokens))
    (hright : Derivable ((Window.mk (i + 1) w.stop).slice tokens)) :
    (binaryAt? tokens w i).isSome := by
  have hstop := hw.stop_le
  obtain ⟨left, hgram, htokens⟩ := derivable_iff_exists_tree.1 hleft
  obtain ⟨right, hgram', htokens'⟩ := derivable_iff_exists_tree.1 hright
  obtain ⟨v, hv, hin, hslice⟩ := exists_part (w := w) hi (by omega) (by omega) htokens.symm
  obtain ⟨u, hu, hin', hslice'⟩ := exists_part (w := w) (Nat.succ_le_of_lt hi') hstop (by omega)
    htokens'.symm
  obtain ⟨found, hfound⟩ := resolve?_complete tokens v.1 hin hgram hslice
  obtain ⟨found', hfound'⟩ := resolve?_complete tokens u.1 hin' hgram' hslice'
  have hshape := binaryShape?_eq_some_iff.2 ⟨t, v, u, ht, hv, hu, rfl⟩
  have hbuild : (Shape.binary v t u).build (fun part => resolve? tokens part.1) =
      some (.binary found t found') :=
    Shape.build_eq_some_iff.2 ⟨found, found', hfound, hfound', rfl⟩
  rw [binaryAt?, hshape, Option.bind_some, hbuild]
  rfl

/-- What the rule for operations says about its result. -/
structure Splits (tokens : Array Token) (w : Window) (i : Nat) (left : Expr) (op : Token)
    (right : Expr) : Prop where
  start_le : w.start ≤ i
  lt_stop : i < w.stop
  operator : tokens[i]? = some op
  left_found : resolve? tokens ⟨w.start, i⟩ = some left
  right_found : resolve? tokens ⟨i + 1, w.stop⟩ = some right
  /-- Any other split that would do comes later in the order. -/
  outermost : ∀ j ∈ splits tokens w, (binaryAt? tokens w j).isSome → j ≠ i → Outranks tokens i j

theorem exists_splits_of_find? {e : Expr} (h : Rule.find? tokens w .binary = some e) :
    ∃ i left op right, e = .binary left op right ∧ Splits tokens w i left op right := by
  rw [find?_binary_eq, List.findSome?_eq_some_iff] at h
  obtain ⟨before, i, behind, hsplits, hi, hfail⟩ := h
  have hmem : i ∈ splits tokens w := by
    rw [hsplits]
    simp
  obtain ⟨hlt, hlt', -⟩ := mem_splits_iff.1 hmem
  obtain ⟨s, hs, hbuild⟩ := Option.bind_eq_some_iff.1 hi
  obtain ⟨op, ⟨_, _⟩, ⟨_, _⟩, hop, rfl, rfl, rfl⟩ := binaryShape?_eq_some_iff.1 hs
  obtain ⟨left, right, hleft, hright, rfl⟩ := Shape.build_eq_some_iff.1 hbuild
  refine ⟨i, left, op, right, rfl, by omega, by omega, hop, hleft, hright, ?_⟩
  intro j hj hsome hne
  have hsorted := pairwise_splits tokens w
  rw [hsplits] at hj hsorted
  rcases List.mem_append.1 hj with hj | hj
  · rw [hfail j hj] at hsome
    contradiction
  · obtain rfl | hj := List.mem_cons.1 hj
    · exact absurd rfl hne
    · exact (List.pairwise_cons.1 (List.pairwise_append.1 hsorted).2.1).1 j hj

/-- A cut of the window outside all brackets is no better than the split that is taken. -/
theorem Splits.outranks_cut {i : Nat} {left right : Expr} {op t : Token} {pre post : List Token}
    (h : Splits tokens w i left op right) (hw : w.Within tokens)
    (hgram : (Expr.binary left op right).Grammatical)
    (htokens : (Expr.binary left op right).tokens = w.slice tokens)
    (hcut : w.slice tokens = pre ++ t :: post) (hdepth : bracketDepth pre = 0)
    (hop : t.IsOperator) (hne : pre.length ≠ left.tokens.length) :
    op.level < t.level ∨ op.level = t.level ∧
      if op.GroupsRight then left.tokens.length < pre.length
      else pre.length < left.tokens.length := by
  have hstop := hw.stop_le
  obtain ⟨-, hpre, hpost⟩ := (hgram.cut (htokens.trans hcut) hdepth).2 hop.1
  obtain ⟨j, hj, hj', ht, rfl, rfl⟩ := hw.slice_eq_append_cons_iff.1 hcut
  have hbefore : (Window.mk w.start j).Within tokens := within_mk hj (by omega)
  have hbehind := within_mk (Nat.succ_le_of_lt hj') hstop
  have hleft : (Window.mk w.start i).Within tokens :=
    within_mk h.start_le (Nat.le_trans (Nat.le_of_lt h.lt_stop) hstop)
  have hlen := hbefore.length_slice
  have hlen' := hleft.length_slice
  rw [← (resolve?_sound _ _ hleft h.left_found).2] at hlen'
  simp only [width] at hlen hlen'
  have hmem : j ∈ splits tokens w := mem_splits_iff.2
    ⟨hbefore.start_lt_of_ne_nil hpre.ne_nil, hbehind.start_lt_of_ne_nil hpost.ne_nil, t, ht, hop⟩
  have hsome := binaryAt?_isSome hw hj hj' ht hpre hpost
  have hstart := h.start_le
  obtain ⟨op', t', hop', ht', horder⟩ := h.outermost j hmem hsome (by omega)
  obtain rfl : op = op' := Option.some.inj (h.operator.symm.trans hop')
  obtain rfl : t = t' := Option.some.inj (ht.symm.trans ht')
  rw [hlen, hlen']
  rcases horder with hlt | ⟨heq, hside⟩
  · exact .inl hlt
  · refine .inr ⟨heq, ?_⟩
    split at hside
    · rw [if_pos ‹_›]
      omega
    · rw [if_neg ‹_›]
      omega

/-- A window that starts with a minus is no operation for the search. -/
theorem not_leadsWithUnary_of_find? {e : Expr} (hw : w.Within tokens)
    (h : Rule.find? tokens w .unary = none) (hgram : e.Grammatical)
    (htokens : e.tokens = w.slice tokens) : ¬ e.LeadsWithUnary := by
  intro hlead
  obtain ⟨t, rest, hhead, hk⟩ := hlead.exists_head hgram
  have hder := hgram.derivable
  rw [hhead] at hder
  obtain ⟨operand, hoperand, hrest⟩ := derivable_iff_exists_tree.1 (hder.tail_of_unary hk)
  have hsome : (Rule.find? tokens w .unary).isSome := (Rule.find?_isSome_iff hw).2
    ⟨.unary t operand, rfl, ⟨hk, hoperand⟩, by rw [← htokens, hhead, ← hrest]; rfl⟩
  rw [h] at hsome
  contradiction

/-- **The operation that the search takes is the outermost one.** -/
theorem Splits.canonical {i : Nat} {left right : Expr} {op : Token}
    (h : Splits tokens w i left op right) (hw : w.Within tokens)
    (hunary : Rule.find? tokens w .unary = none)
    (hgram : (Expr.binary left op right).Grammatical)
    (htokens : (Expr.binary left op right).tokens = w.slice tokens) (hleft : left.Canonical)
    (hright : right.Canonical) : (Expr.binary left op right).Canonical := by
  have hlead : ¬ (Expr.binary left op right).LeadsWithUnary :=
    not_leadsWithUnary_of_find? hw hunary hgram htokens
  obtain ⟨hop, hgramLeft, hgramRight⟩ := id hgram
  refine ⟨hlead, fun t ht => ?_, fun t ht => ?_, hleft, hright⟩
  · obtain ⟨hop', pre, post, hcut, hdepth⟩ := hgramLeft.exists_cut ht
    have hcut' : w.slice tokens = pre ++ t :: (post ++ op :: right.tokens) := by
      rw [← htokens, Expr.tokens, hcut]
      simp
    have hlen : pre.length < left.tokens.length := by
      rw [hcut, List.length_append, List.length_cons]
      omega
    rcases h.outranks_cut hw hgram htokens hcut' hdepth hop' (by omega) with hlt | ⟨heq, hside⟩
    · exact .inl hlt
    · refine .inr ⟨heq, fun hgroups => ?_⟩
      rw [if_pos hgroups] at hside
      omega
  · obtain ⟨hop', pre, post, hcut, hdepth⟩ := hgramRight.exists_cut ht
    have hcut' : w.slice tokens = (left.tokens ++ op :: pre) ++ t :: post := by
      rw [← htokens, Expr.tokens, hcut]
      simp
    have hdepth' : bracketDepth (left.tokens ++ op :: pre) = 0 := by
      simp [hgramLeft.balanced.total, Token.rise_of_isOperator hop, hdepth]
    have hlen : left.tokens.length < (left.tokens ++ op :: pre).length := by
      rw [List.length_append, List.length_cons]
      omega
    rcases h.outranks_cut hw hgram htokens hcut' hdepth' hop' (by omega) with hlt | ⟨heq, hside⟩
    · exact .inl hlt
    · by_cases hgroups : op.GroupsRight
      · exact .inr ⟨heq, hgroups⟩
      · rw [if_neg hgroups] at hside
        omega

/-- What comes before `b` in a list stands before every place of `b`. -/
theorem mem_of_idxOf_lt {α : Type} [DecidableEq α] {a b : α} {before behind : List α}
    (h : (before ++ b :: behind).idxOf a < (before ++ b :: behind).idxOf b) : a ∈ before := by
  by_contra hnot
  have hle : (before ++ b :: behind).idxOf b ≤ before.length := by
    rw [List.idxOf_append]
    split
    · exact List.idxOf_le_length
    · simp
  rw [List.idxOf_append_of_notMem hnot] at h
  omega

/-- Where a minus is tried before the operations, the rule for operations is taken only if the rule
for a leading minus failed. -/
theorem exists_rule_of_findSome? {rules : List Rule}
    (hunary : rules.idxOf .unary < rules.idxOf .binary) {e : Expr}
    (h : rules.findSome? (Rule.find? tokens w) = some e) :
    ∃ rule, Rule.find? tokens w rule = some e ∧
      (rule = .binary → Rule.find? tokens w .unary = none) := by
  obtain ⟨before, rule, behind, rfl, hrule, hfail⟩ := List.findSome?_eq_some_iff.1 h
  refine ⟨rule, hrule, ?_⟩
  intro h
  subst h
  exact hfail .unary (mem_of_idxOf_lt hunary)

/-- A result comes from some rule, and from the rule for operations only if the rule for a
leading minus failed. -/
theorem exists_rule_of_resolve? {e : Expr} (h : resolve? tokens w = some e) :
    ∃ rule, Rule.find? tokens w rule = some e ∧
      (rule = .binary → Rule.find? tokens w .unary = none) := by
  rw [resolve?_eq_findSome?] at h
  exact exists_rule_of_findSome? (by decide) h

/-- **What the search finds is canonical.** -/
theorem resolve?_canonical (tokens : Array Token) (w : Window) (hw : w.Within tokens) {e : Expr}
    (h : resolve? tokens w = some e) : e.Canonical := by
  have hsound := resolve?_sound tokens w hw h
  obtain ⟨rule, hrule, hunary⟩ := exists_rule_of_resolve? h
  obtain ⟨s, hs, hfits, hmatches⟩ := exists_shape_of_find? hw hrule
  have ih (part : w.Part) (child : Expr) (hin : part.1.Within tokens)
      (hchild : resolve? tokens part.1 = some child) : child.Canonical :=
    resolve?_canonical tokens part.1 hin hchild
  cases s with
  | value t =>
    obtain rfl := hmatches
    trivial
  | call f opening argument closing =>
    obtain ⟨-, -, -, hin, -⟩ := hfits
    obtain ⟨child, hchild, rfl⟩ := hmatches
    exact ih argument child hin hchild
  | call2 f opening first separator second closing =>
    obtain ⟨-, -, -, -, hin, hin', -⟩ := hfits
    obtain ⟨child, child', hchild, hchild', rfl⟩ := hmatches
    exact ⟨ih first child hin hchild, ih second child' hin' hchild'⟩
  | unary op operand =>
    obtain ⟨-, hin, -⟩ := hfits
    obtain ⟨child, hchild, rfl⟩ := hmatches
    exact ih operand child hin hchild
  | paren opening inner closing =>
    obtain ⟨-, -, hin, -⟩ := hfits
    obtain ⟨child, hchild, rfl⟩ := hmatches
    exact ih inner child hin hchild
  | binary v op u =>
    obtain ⟨-, hin, hin', -⟩ := hfits
    obtain rfl : Rule.binary = rule := Rule.rule_eq_of_mem_shapes hs
    obtain ⟨left, right, hleft, hright, rfl⟩ := hmatches
    obtain ⟨i, left', op', right', heq, hsplits⟩ := exists_splits_of_find? hrule
    obtain ⟨rfl, rfl, rfl⟩ := Expr.binary.inj heq
    exact hsplits.canonical hw (hunary rfl) hsound.1 hsound.2 (ih v left hin hleft)
      (ih u right hin' hright)
termination_by w.width
decreasing_by exact part.2

/-! ### The canonical tree of a sequence of tokens -/

/-- **Parsing gives the canonical tree of the tokens.** -/
theorem parse_eq_ok_iff {ts : List Token} {e : Expr} :
    parse ts = .ok e ↔ e.Grammatical ∧ e.Canonical ∧ e.tokens = ts := by
  have hwhole := whole_within ts.toArray
  refine ⟨?_, ?_⟩
  · intro h
    obtain ⟨hgram, htokens⟩ := parse_sound h
    exact ⟨hgram, resolve?_canonical _ _ hwhole (parse_eq_ok_iff_resolve?.1 h), htokens⟩
  · intro h
    obtain ⟨hgram, hcanon, rfl⟩ := h
    obtain ⟨e', he'⟩ := exists_parse_iff.2 hgram.derivable
    obtain ⟨hgram', htokens'⟩ := parse_sound he'
    have hcanon' := resolve?_canonical _ _ hwhole (parse_eq_ok_iff_resolve?.1 he')
    rw [he', hcanon.unique hcanon' hgram hgram' htokens'.symm]

end Branchwise
