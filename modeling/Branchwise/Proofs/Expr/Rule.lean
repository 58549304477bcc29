/-
The rules list exactly the productions over a window.

Each rule inspects a few places of the window and the size of it.  What that amounts to is an
equation between the slice of the window and the slices of its parts, `Shape.Fits`.  A shape
that a rule lists fits (`Rule.fits_of_mem_shapes`), so what is built of it is a grammatical tree
over the window; and no guard of a rule hides a tree (`Expr.Grammatical.exists_shape`).
-/
import Mathlib.Data.Option.Basic
import Branchwise.Proofs.Expr.Window

namespace Branchwise

open Window

variable {tokens : Array Token} {w : Window}

/-- The shape is a production, and its tokens and those of its parts make up the window. -/
def Shape.Fits (tokens : Array Token) : Shape w → Prop
  | .value token => token.isValue ∧ w.slice tokens = [token]
  | .call function opening argument closing =>
    function.kind = .function1 ∧ opening.kind = .leftParen ∧ closing.kind = .rightParen ∧
      argument.1.Within tokens ∧
      w.slice tokens = function :: opening :: argument.1.slice tokens ++ [closing]
  | .call2 function opening first separator second closing =>
    function.kind = .function2 ∧ opening.kind = .leftParen ∧ separator.kind = .separator ∧
      closing.kind = .rightParen ∧ first.1.Within tokens ∧ second.1.Within tokens ∧
      w.slice tokens = function :: opening :: first.1.slice tokens ++
        separator :: second.1.slice tokens ++ [closing]
  | .unary operator operand =>
    operator.kind = .unary ∧ operand.1.Within tokens ∧
      w.slice tokens = operator :: operand.1.slice tokens
  | .paren opening inner closing =>
    opening.kind = .leftParen ∧ closing.kind = .rightParen ∧ inner.1.Within tokens ∧
      w.slice tokens = opening :: inner.1.slice tokens ++ [closing]
  | .binary left operator right =>
    operator.IsOperator ∧ left.1.Within tokens ∧ right.1.Within tokens ∧
      w.slice tokens = left.1.slice tokens ++ operator :: right.1.slice tokens

/-- The tree has the shape, with children that belong to the parts. -/
def Shape.Matches (belongs : w.Part → Expr → Prop) (e : Expr) : Shape w → Prop
  | .value token => e = .value token
  | .call function opening argument closing =>
    ∃ child, belongs argument child ∧ e = .call function opening child closing
  | .call2 function opening first separator second closing =>
    ∃ child child', belongs first child ∧ belongs second child' ∧
      e = .call2 function opening child separator child' closing
  | .unary operator operand => ∃ child, belongs operand child ∧ e = .unary operator child
  | .paren opening inner closing => ∃ child, belongs inner child ∧ e = .paren opening child closing
  | .binary left operator right =>
    ∃ child child', belongs left child ∧ belongs right child' ∧ e = .binary child operator child'

/-- The tokens of the part are those of the tree. -/
def Window.Part.Spells (tokens : Array Token) (part : w.Part) (e : Expr) : Prop :=
  part.1.Within tokens ∧ part.1.slice tokens = e.tokens

theorem Shape.build_eq_some_iff {s : Shape w} {resolve : w.Part → Option Expr} {e : Expr} :
    s.build resolve = some e ↔ s.Matches (fun part child => resolve part = some child) e := by
  cases s <;>
    simp only [build, Matches, Option.bind_eq_bind, Option.bind_eq_some_iff, Option.pure_def,
      Option.some.injEq, @eq_comm Expr e, exists_and_left]

/-- The rule whose node a shape is. -/
def Shape.rule : Shape w → Rule
  | .value .. => .value
  | .call .. | .call2 .. => .call
  | .unary .. => .unary
  | .paren .. => .paren
  | .binary .. => .binary

/-- The rule whose node is at the top of the tree. -/
def Expr.rule : Expr → Rule
  | .value .. => .value
  | .call .. | .call2 .. => .call
  | .unary .. => .unary
  | .paren .. => .paren
  | .binary .. => .binary

theorem Shape.Matches.rule_eq {s : Shape w} {belongs : w.Part → Expr → Prop} {e : Expr}
    (h : s.Matches belongs e) : e.rule = s.rule := by
  cases s with
  | value => rw [show e = _ from h]; rfl
  | call | unary | paren => obtain ⟨_, _, rfl⟩ := h; rfl
  | call2 | binary => obtain ⟨_, _, _, _, rfl⟩ := h; rfl

/-! ### What the rules look at -/

private theorem guard_eq_some_iff {p : Prop} [Decidable p] {u : Unit} :
    (guard p : Option Unit) = some u ↔ p := by
  show (if p then pure u else failure : Option Unit) = some u ↔ p
  by_cases h : p
  · simp [h]
  · simp [h]

theorem Token.isOperator_iff {t : Token} : t.IsOperator ↔ ∃ o, t.operator? = some o := by
  unfold IsOperator operator?
  by_cases hk : t.kind = .binary
  · simp only [hk, true_and, if_true, Named.ofName?_eq_some_iff]
    refine ⟨?_, ?_⟩
    · intro h
      simp only [List.mem_cons, List.not_mem_nil, or_false] at h
      rcases h with h | h | h | h | h
      · exact ⟨.add, h.symm⟩
      · exact ⟨.sub, h.symm⟩
      · exact ⟨.mul, h.symm⟩
      · exact ⟨.div, h.symm⟩
      · exact ⟨.pow, h.symm⟩
    · intro h
      obtain ⟨o, ho⟩ := h
      rw [← ho]
      cases o <;> simp [Named.name]
  · simp [hk]

theorem mem_operators_iff {i : Nat} {o : Operator} :
    (i, o) ∈ operators tokens w ↔
      w.start < i ∧ i + 1 < w.stop ∧ ∃ t, tokens[i]? = some t ∧ t.operator? = some o := by
  simp only [operators, List.mem_filterMap, List.mem_range'_1, Option.map_eq_some_iff,
    Option.bind_eq_bind, Option.bind_eq_some_iff, Prod.mk.injEq, width]
  refine ⟨?_, ?_⟩
  · intro h
    obtain ⟨j, hj, o', ⟨t, ht, ho⟩, rfl, rfl⟩ := h
    exact ⟨by omega, by omega, t, ht, ho⟩
  · intro h
    obtain ⟨hi, hi', t, ht, ho⟩ := h
    exact ⟨i, by omega, o, ⟨t, ht, ho⟩, rfl, rfl⟩

/-- A window is split at every operator that leaves a token on either side. -/
theorem mem_splits_iff {i : Nat} :
    i ∈ splits tokens w ↔
      w.start < i ∧ i + 1 < w.stop ∧ ∃ t, tokens[i]? = some t ∧ t.IsOperator := by
  have hplaces : i ∈ splits tokens w ↔ ∃ o, (i, o) ∈ operators tokens w := by
    simp only [splits, placesOf, List.mem_append, List.mem_reverse, List.mem_map,
      List.mem_filter, decide_eq_true_eq, Prod.exists]
    refine ⟨?_, ?_⟩
    · rintro ((⟨_, o, ⟨ho, -⟩, rfl⟩ | ⟨_, o, ⟨ho, -⟩, rfl⟩) | ⟨_, o, ⟨ho, -⟩, rfl⟩) <;>
        exact ⟨o, ho⟩
    · intro h
      obtain ⟨o, ho⟩ := h
      cases hb : o.binding with
      | sum => exact .inl (.inl ⟨i, o, ⟨ho, hb⟩, rfl⟩)
      | product => exact .inl (.inr ⟨i, o, ⟨ho, hb⟩, rfl⟩)
      | power => exact .inr ⟨i, o, ⟨ho, hb⟩, rfl⟩
  simp only [hplaces, mem_operators_iff, Token.isOperator_iff]
  refine ⟨?_, ?_⟩
  · intro h
    obtain ⟨o, hi, hi', t, ht, ho⟩ := h
    exact ⟨hi, hi', t, ht, o, ho⟩
  · intro h
    obtain ⟨hi, hi', t, ht, o, ho⟩ := h
    exact ⟨o, hi, hi', t, ht, ho⟩

theorem valueShape?_eq_some_iff {s : Shape w} :
    valueShape? tokens w = some s ↔
      ∃ t, w.width = 1 ∧ tokens[w.start]? = some t ∧ t.isValue ∧ s = .value t := by
  simp only [valueShape?, Option.bind_eq_bind, Option.bind_eq_some_iff, guard_eq_some_iff,
    Option.pure_def, Option.some.injEq]
  refine ⟨?_, ?_⟩
  · intro h
    obtain ⟨_, hwidth, t, ht, _, hvalue, rfl⟩ := h
    exact ⟨t, hwidth, ht, hvalue, rfl⟩
  · intro h
    obtain ⟨t, hwidth, ht, hvalue, rfl⟩ := h
    exact ⟨(), hwidth, t, ht, (), hvalue, rfl⟩

/-- The places of a call at which its own tokens stand, its separator apart. -/
structure CallFrame (tokens : Array Token) (w : Window) (f opening closing : Token) : Prop where
  four_le : 4 ≤ w.width
  functionAt : tokens[w.start]? = some f
  openingAt : tokens[w.start + 1]? = some opening
  closingAt : tokens[w.stop - 1]? = some closing
  opens : opening.kind = .leftParen
  closes : closing.kind = .rightParen

theorem callFrame?_eq_some_iff {f opening closing : Token} :
    callFrame? tokens w = some (f, opening, closing) ↔ CallFrame tokens w f opening closing := by
  simp only [callFrame?, Option.bind_eq_bind, Option.bind_eq_some_iff, guard_eq_some_iff,
    Option.pure_def, Option.some.injEq, Prod.mk.injEq]
  refine ⟨?_, ?_⟩
  · intro h
    obtain ⟨_, hwidth, _, hf, _, hopening, _, hclosing, _, ⟨hopens, hcloses⟩, rfl, rfl, rfl⟩ := h
    exact ⟨hwidth, hf, hopening, hclosing, hopens, hcloses⟩
  · intro h
    exact ⟨(), h.four_le, f, h.functionAt, opening, h.openingAt, closing, h.closingAt, (),
      ⟨h.opens, h.closes⟩, rfl, rfl, rfl⟩

theorem callShape?_eq_some_iff {s : Shape w} :
    callShape? tokens w = some s ↔
      ∃ f opening closing, ∃ argument : w.Part, CallFrame tokens w f opening closing ∧
        f.kind = .function1 ∧ argument.1 = ⟨w.start + 2, w.stop - 1⟩ ∧
        s = .call f opening argument closing := by
  simp only [callShape?, Option.bind_eq_bind, Option.bind_eq_some_iff, Prod.exists,
    callFrame?_eq_some_iff, guard_eq_some_iff, part?_eq_some_iff, Option.pure_def,
    Option.some.injEq]
  refine ⟨?_, ?_⟩
  · intro h
    obtain ⟨f, opening, closing, hframe, _, hf, argument, hargument, rfl⟩ := h
    exact ⟨f, opening, closing, argument, hframe, hf, hargument, rfl⟩
  · intro h
    obtain ⟨f, opening, closing, argument, hframe, hf, hargument, rfl⟩ := h
    exact ⟨f, opening, closing, hframe, (), hf, argument, hargument, rfl⟩

theorem call2Shape?_eq_some_iff {s : Shape w} {i : Nat} :
    call2Shape? tokens w i = some s ↔
      ∃ f opening separator closing, ∃ first second : w.Part,
        CallFrame tokens w f opening closing ∧ f.kind = .function2 ∧
        tokens[i]? = some separator ∧ separator.kind = .separator ∧
        first.1 = ⟨w.start + 2, i⟩ ∧ second.1 = ⟨i + 1, w.stop - 1⟩ ∧
        s = .call2 f opening first separator second closing := by
  simp only [call2Shape?, Option.bind_eq_bind, Option.bind_eq_some_iff, Prod.exists,
    callFrame?_eq_some_iff, guard_eq_some_iff, part?_eq_some_iff, Option.pure_def,
    Option.some.injEq]
  refine ⟨?_, ?_⟩
  · intro h
    obtain ⟨f, opening, closing, hframe, _, hf, separator, hseparator, _, hsep, first, hfirst,
      second, hsecond, rfl⟩ := h
    exact ⟨f, opening, separator, closing, first, second, hframe, hf, hseparator, hsep, hfirst,
      hsecond, rfl⟩
  · intro h
    obtain ⟨f, opening, separator, closing, first, second, hframe, hf, hseparator, hsep, hfirst,
      hsecond, rfl⟩ := h
    exact ⟨f, opening, closing, hframe, (), hf, separator, hseparator, (), hsep, first, hfirst,
      second, hsecond, rfl⟩

theorem unaryShape?_eq_some_iff {s : Shape w} :
    unaryShape? tokens w = some s ↔
      ∃ t, ∃ operand : w.Part, 1 ≤ w.width ∧ tokens[w.start]? = some t ∧ t.kind = .unary ∧
        operand.1 = ⟨w.start + 1, w.stop⟩ ∧ s = .unary t operand := by
  simp only [unaryShape?, Option.bind_eq_bind, Option.bind_eq_some_iff, guard_eq_some_iff,
    part?_eq_some_iff, Option.pure_def, Option.some.injEq]
  refine ⟨?_, ?_⟩
  · intro h
    obtain ⟨_, hwidth, t, ht, _, hunary, operand, hoperand, rfl⟩ := h
    exact ⟨t, operand, hwidth, ht, hunary, hoperand, rfl⟩
  · intro h
    obtain ⟨t, operand, hwidth, ht, hunary, hoperand, rfl⟩ := h
    exact ⟨(), hwidth, t, ht, (), hunary, operand, hoperand, rfl⟩

theorem parenShape?_eq_some_iff {s : Shape w} :
    parenShape? tokens w = some s ↔
      ∃ opening closing, ∃ inner : w.Part, 3 ≤ w.width ∧ tokens[w.start]? = some opening ∧
        tokens[w.stop - 1]? = some closing ∧ opening.kind = .leftParen ∧
        closing.kind = .rightParen ∧ inner.1 = ⟨w.start + 1, w.stop - 1⟩ ∧
        s = .paren opening inner closing := by
  simp only [parenShape?, Option.bind_eq_bind, Option.bind_eq_some_iff, guard_eq_some_iff,
    part?_eq_some_iff, Option.pure_def, Option.some.injEq]
  refine ⟨?_, ?_⟩
  · intro h
    obtain ⟨_, hwidth, opening, ho, closing, hc, _, ⟨hopens, hcloses⟩, inner, hinner, rfl⟩ := h
    exact ⟨opening, closing, inner, hwidth, ho, hc, hopens, hcloses, hinner, rfl⟩
  · intro h
    obtain ⟨opening, closing, inner, hwidth, ho, hc, hopens, hcloses, hinner, rfl⟩ := h
    exact ⟨(), hwidth, opening, ho, closing, hc, (), ⟨hopens, hcloses⟩, inner, hinner, rfl⟩

theorem binaryShape?_eq_some_iff {s : Shape w} {i : Nat} :
    binaryShape? tokens w i = some s ↔
      ∃ t, ∃ left right : w.Part, tokens[i]? = some t ∧ left.1 = ⟨w.start, i⟩ ∧
        right.1 = ⟨i + 1, w.stop⟩ ∧ s = .binary left t right := by
  simp only [binaryShape?, Option.bind_eq_bind, Option.bind_eq_some_iff, part?_eq_some_iff,
    Option.pure_def, Option.some.injEq]
  refine ⟨?_, ?_⟩
  · intro h
    obtain ⟨t, ht, left, hleft, right, hright, rfl⟩ := h
    exact ⟨t, left, right, ht, hleft, hright, rfl⟩
  · intro h
    obtain ⟨t, left, right, ht, hleft, hright, rfl⟩ := h
    exact ⟨t, ht, left, hleft, right, hright, rfl⟩

/-! ### The shapes of each rule -/

theorem CallFrame.slice {f opening closing : Token} (h : CallFrame tokens w f opening closing)
    (hw : w.Within tokens) :
    w.slice tokens =
      f :: opening :: (Window.mk (w.start + 2) (w.stop - 1)).slice tokens ++ [closing] := by
  have hwidth := h.four_le
  have hstop := hw.stop_le
  simp only [width] at hwidth
  have htail := within_mk (show w.start + 1 ≤ w.stop by omega) hstop
  have hlast := within_mk (show w.start + 2 ≤ w.stop by omega) hstop
  refine hw.slice_eq_cons_iff.2 ⟨by omega, h.functionAt, ?_⟩
  refine htail.slice_eq_cons_iff.2 ⟨show w.start + 1 < w.stop by omega, h.openingAt, ?_⟩
  exact hlast.slice_eq_concat_iff.2 ⟨show w.start + 2 < w.stop by omega, h.closingAt, rfl⟩

/-- **Every shape that a rule lists is a production over the window.** -/
theorem Rule.fits_of_mem_shapes {rule : Rule} {s : Shape w} (hw : w.Within tokens)
    (h : s ∈ rule.shapes tokens w) : s.Fits tokens := by
  have hstop := hw.stop_le
  cases rule with
  | value =>
    obtain ⟨t, hwidth, ht, hvalue, rfl⟩ := valueShape?_eq_some_iff.1 (Option.mem_toList.1 h)
    simp only [width] at hwidth
    refine ⟨hvalue, hw.slice_eq_cons_iff.2 ⟨by omega, ht, ?_⟩⟩
    rw [show w.stop = w.start + 1 by omega, slice_empty]
  | call =>
    rcases List.mem_append.1 h with h | h
    · obtain ⟨f, opening, closing, ⟨_, _⟩, hframe, hf, rfl, rfl⟩ :=
        callShape?_eq_some_iff.1 (Option.mem_toList.1 h)
      have hwidth := hframe.four_le
      simp only [width] at hwidth
      exact ⟨hf, hframe.opens, hframe.closes, within_mk (by omega) (by omega), hframe.slice hw⟩
    · obtain ⟨i, hi, h⟩ := List.mem_filterMap.1 h
      obtain ⟨f, opening, separator, closing, ⟨_, _⟩, ⟨_, _⟩, hframe, hf, hseparator, hsep, rfl,
        rfl, rfl⟩ := call2Shape?_eq_some_iff.1 h
      have hwidth := hframe.four_le
      simp only [List.mem_range'_1, width] at hi hwidth
      have hinner : (Window.mk (w.start + 2) (w.stop - 1)).Within tokens :=
        within_mk (by omega) (by omega)
      refine ⟨hf, hframe.opens, hsep, hframe.closes, within_mk (by omega) (by omega),
        within_mk (by omega) (by omega), ?_⟩
      rw [hframe.slice hw, hinner.slice_divide hi.1 (show i < w.stop - 1 by omega) hseparator]
      simp
  | unary =>
    obtain ⟨t, ⟨_, _⟩, hwidth, ht, hunary, rfl, rfl⟩ :=
      unaryShape?_eq_some_iff.1 (Option.mem_toList.1 h)
    simp only [width] at hwidth
    exact ⟨hunary, within_mk (by omega) hstop, hw.slice_eq_cons_iff.2 ⟨by omega, ht, rfl⟩⟩
  | paren =>
    obtain ⟨opening, closing, ⟨_, _⟩, hwidth, ho, hc, hopens, hcloses, rfl, rfl⟩ :=
      parenShape?_eq_some_iff.1 (Option.mem_toList.1 h)
    simp only [width] at hwidth
    have htail := within_mk (show w.start + 1 ≤ w.stop by omega) hstop
    refine ⟨hopens, hcloses, within_mk (by omega) (by omega), ?_⟩
    refine hw.slice_eq_cons_iff.2 ⟨by omega, ho, ?_⟩
    exact htail.slice_eq_concat_iff.2 ⟨show w.start + 1 < w.stop by omega, hc, rfl⟩
  | binary =>
    obtain ⟨i, hi, h⟩ := List.mem_filterMap.1 h
    obtain ⟨hlt, hlt', t, ht, hop⟩ := mem_splits_iff.1 hi
    obtain ⟨t', ⟨_, _⟩, ⟨_, _⟩, ht', rfl, rfl, rfl⟩ := binaryShape?_eq_some_iff.1 h
    obtain rfl : t = t' := Option.some.inj (ht.symm.trans ht')
    exact ⟨hop, within_mk (by omega) (by omega), within_mk (by omega) hstop,
      hw.slice_divide (by omega) (by omega) ht⟩

theorem Rule.rule_eq_of_mem_shapes {rule : Rule} {s : Shape w}
    (h : s ∈ rule.shapes tokens w) : s.rule = rule := by
  cases rule with
  | value =>
    obtain ⟨_, _, _, _, rfl⟩ := valueShape?_eq_some_iff.1 (Option.mem_toList.1 h)
    rfl
  | call =>
    rcases List.mem_append.1 h with h | h
    · obtain ⟨_, _, _, _, _, _, _, rfl⟩ := callShape?_eq_some_iff.1 (Option.mem_toList.1 h)
      rfl
    · obtain ⟨_, _, h⟩ := List.mem_filterMap.1 h
      obtain ⟨_, _, _, _, _, _, _, _, _, _, _, _, rfl⟩ := call2Shape?_eq_some_iff.1 h
      rfl
  | unary =>
    obtain ⟨_, _, _, _, _, _, rfl⟩ := unaryShape?_eq_some_iff.1 (Option.mem_toList.1 h)
    rfl
  | paren =>
    obtain ⟨_, _, _, _, _, _, _, _, _, rfl⟩ := parenShape?_eq_some_iff.1 (Option.mem_toList.1 h)
    rfl
  | binary =>
    obtain ⟨_, _, h⟩ := List.mem_filterMap.1 h
    obtain ⟨_, _, _, _, _, _, rfl⟩ := binaryShape?_eq_some_iff.1 h
    rfl

/-- The places of a call, read off its tokens. -/
theorem CallFrame.of_slice {f opening closing : Token} {inner : List Token}
    (hw : w.Within tokens) (h : w.slice tokens = f :: opening :: inner ++ [closing])
    (hinner : inner ≠ []) (hopens : opening.kind = .leftParen)
    (hcloses : closing.kind = .rightParen) :
    CallFrame tokens w f opening closing ∧
      (Window.mk (w.start + 2) (w.stop - 1)).slice tokens = inner := by
  have hstop := hw.stop_le
  have hwidth : 4 ≤ w.width := by
    have hpos := List.length_pos_iff.2 hinner
    rw [← hw.length_slice, h]
    simp only [List.length_append, List.length_cons, List.length_nil]
    omega
  simp only [width] at hwidth
  obtain ⟨-, hf, h⟩ := hw.slice_eq_cons_iff.1 h
  have htail := within_mk (show w.start + 1 ≤ w.stop by omega) hstop
  obtain ⟨-, ho, h⟩ := htail.slice_eq_cons_iff.1 h
  have hlast := within_mk (show w.start + 2 ≤ w.stop by omega) hstop
  obtain ⟨-, hc, h⟩ := hlast.slice_eq_concat_iff.1 h
  exact ⟨⟨hwidth, hf, ho, hc, hopens, hcloses⟩, h⟩

/-- **No guard of a rule hides a tree over the window.** -/
theorem Expr.Grammatical.exists_shape {e : Expr} (he : e.Grammatical) (hw : w.Within tokens)
    (h : w.slice tokens = e.tokens) :
    ∃ s ∈ e.rule.shapes tokens w, s.Matches (Part.Spells tokens) e := by
  have hstop := hw.stop_le
  cases e with
  | value t =>
    obtain ⟨-, ht, -⟩ := hw.slice_eq_cons_iff.1 h
    have hwidth : w.width = 1 := by
      rw [← hw.length_slice, h]
      rfl
    have hshape := valueShape?_eq_some_iff.2 ⟨t, hwidth, ht, he, rfl⟩
    exact ⟨.value t, Option.mem_toList.2 hshape, rfl⟩
  | call f opening argument closing =>
    obtain ⟨hf, hopens, hcloses, -⟩ := he
    obtain ⟨hframe, hslice⟩ := CallFrame.of_slice hw h argument.tokens_ne_nil hopens hcloses
    have hwidth := hframe.four_le
    simp only [width] at hwidth
    obtain ⟨v, hv, hcover⟩ := exists_part (w := w) (by omega) (by omega) (by omega) hslice
    have hshape := callShape?_eq_some_iff.2 ⟨f, opening, closing, v, hframe, hf, hv, rfl⟩
    exact ⟨.call f opening v closing,
      List.mem_append_left _ (Option.mem_toList.2 hshape), argument, hcover, rfl⟩
  | call2 f opening first separator second closing =>
    obtain ⟨hf, hopens, hsep, hcloses, -⟩ := he
    have h : w.slice tokens =
        f :: opening :: (first.tokens ++ separator :: second.tokens) ++ [closing] := by
      simpa [Expr.tokens] using h
    obtain ⟨hframe, hslice⟩ := CallFrame.of_slice hw h (by simp) hopens hcloses
    have hwidth := hframe.four_le
    simp only [width] at hwidth
    have hinner : (Window.mk (w.start + 2) (w.stop - 1)).Within tokens :=
      within_mk (by omega) (by omega)
    obtain ⟨i, hi, hi', hseparator, hfirst, hsecond⟩ := hinner.slice_eq_append_cons_iff.1 hslice
    simp only at hi hi' hfirst hsecond
    obtain ⟨v, hv, hcover⟩ := exists_part (w := w) hi (by omega) (by omega) hfirst
    obtain ⟨u, hu, hcover'⟩ := exists_part (w := w) (Nat.succ_le_of_lt hi') (by omega) (by omega)
      hsecond
    have hmem : i ∈ List.range' (w.start + 2) (w.width - 3) := by
      simp only [List.mem_range'_1, width]
      omega
    have hshape := call2Shape?_eq_some_iff.2
      ⟨f, opening, separator, closing, v, u, hframe, hf, hseparator, hsep, hv, hu, rfl⟩
    exact ⟨.call2 f opening v separator u closing,
      List.mem_append_right _ (List.mem_filterMap.2 ⟨i, hmem, hshape⟩),
      first, second, hcover, hcover', rfl⟩
  | unary op operand =>
    obtain ⟨hlt, ht, hslice⟩ := hw.slice_eq_cons_iff.1 h
    obtain ⟨v, hv, hcover⟩ := exists_part (w := w) hlt hstop (by omega) hslice
    have hshape := unaryShape?_eq_some_iff.2
      ⟨op, v, show 1 ≤ w.stop - w.start by omega, ht, he.1, hv, rfl⟩
    exact ⟨.unary op v, Option.mem_toList.2 hshape, operand, hcover, rfl⟩
  | paren opening inner closing =>
    obtain ⟨hopens, hcloses, -⟩ := he
    obtain ⟨hlt, ho, hrest⟩ := hw.slice_eq_cons_iff.1 h
    have htail := within_mk (show w.start + 1 ≤ w.stop by omega) hstop
    obtain ⟨hlt', hc, hslice⟩ := htail.slice_eq_concat_iff.1 hrest
    simp only at hlt' hc hslice
    have hinner : (Window.mk (w.start + 1) (w.stop - 1)).Within tokens :=
      within_mk (by omega) (by omega)
    have hpos := hinner.start_lt_of_ne_nil (by rw [hslice]; exact inner.tokens_ne_nil)
    simp only at hpos
    obtain ⟨v, hv, hcover⟩ := exists_part (w := w) (by omega) (by omega) (by omega) hslice
    have hshape := parenShape?_eq_some_iff.2
      ⟨opening, closing, v, show 3 ≤ w.stop - w.start by omega, ho, hc, hopens, hcloses, hv, rfl⟩
    exact ⟨.paren opening v closing, Option.mem_toList.2 hshape, inner, hcover, rfl⟩
  | binary left op right =>
    obtain ⟨hop, -, -⟩ := he
    obtain ⟨i, hi, hi', ht, hleft, hright⟩ := hw.slice_eq_append_cons_iff.1 h
    have hwleft : (Window.mk w.start i).Within tokens := within_mk hi (by omega)
    have hwright : (Window.mk (i + 1) w.stop).Within tokens := within_mk hi' hstop
    have hbefore := hwleft.start_lt_of_ne_nil (by rw [hleft]; exact left.tokens_ne_nil)
    have hbehind := hwright.start_lt_of_ne_nil (by rw [hright]; exact right.tokens_ne_nil)
    simp only at hbefore hbehind
    obtain ⟨v, hv, hcover⟩ := exists_part (w := w) hi (by omega) (by omega) hleft
    obtain ⟨u, hu, hcover'⟩ := exists_part (w := w) (Nat.succ_le_of_lt hi') hstop (by omega)
      hright
    have hshape := binaryShape?_eq_some_iff.2 ⟨op, v, u, ht, hv, hu, rfl⟩
    have hmem := mem_splits_iff.2 ⟨hbefore, hbehind, op, ht, hop⟩
    exact ⟨.binary v op u, List.mem_filterMap.2 ⟨i, hmem, hshape⟩,
      left, right, hcover, hcover', rfl⟩

end Branchwise
