/-
The order in which the rules are tried.

By its ends a window may belong to several rules: `sin(z)+(z)` starts and ends as a call does, and
`(z)*(z)` starts and ends with a bracket.  What is inside decides, for trees over the same tokens
have a node of the same rule on top (`Expr.rule_cases`).  A leading minus is the one exception,
since it may negate an operation or only the left side of it.  Then both rules match, and which of
them is tried first decides which tree is found.

Within a rule it is much the same.  No expression has a separator outside its brackets, so between
the brackets of a call only one separator has an expression on either side, and of the shapes that a
rule lists only one can be built (`Rule.shape_unique`).  Operations are the exception, and their
shapes are listed by how loosely they bind.  A `TrialOrder` may change everything but these two
things, and a search that follows it finds the same trees.
-/
import Branchwise.Proofs.Expr.Precedence

namespace Branchwise

open Window

variable {tokens : Array Token} {w : Window}

/-! ### Trees over the same tokens -/

namespace Expr

/-- Only under a minus or an operation does an operator stand outside all brackets. -/
theorem rule_of_mem_outerOperators {e : Expr} {t : Token} (h : t ∈ e.outerOperators) :
    e.rule = .unary ∨ e.rule = .binary := by
  cases e with
  | value | call | call2 | paren => simp [outerOperators] at h
  | unary => exact .inl rfl
  | binary => exact .inr rfl

/-- A tree over the tokens of an operation is an operation too, or a minus leads it. -/
theorem rule_of_tokens_eq_binary {e e' : Expr} (h : e.Grammatical) (h' : e'.Grammatical)
    (htokens : e.tokens = e'.tokens) (hbinary : e.rule = .binary) :
    e'.rule = .unary ∨ e'.rule = .binary := by
  cases e with
  | binary left op right =>
    have hmem : op ∈ (binary left op right).outerOperators := by simp [outerOperators]
    exact rule_of_mem_outerOperators (mem_outerOperators_of_tokens_eq h h' htokens hmem)
  | _ => cases hbinary

/-- What is no operation is told by its first token. -/
theorem rule_eq_of_ne_binary {e e' : Expr} (h : e.Grammatical) (h' : e'.Grammatical)
    (htokens : e.tokens = e'.tokens) (hne : e.rule ≠ .binary) (hne' : e'.rule ≠ .binary) :
    e.rule = e'.rule := by
  cases e with
  | binary => exact absurd rfl hne
  | _ =>
    cases e' with
    | binary => exact absurd rfl hne'
    | _ => grind [tokens, Grammatical, rule, Token.isValue, Token.Kind.isValue]

/-- **Trees over the same tokens have a node of the same rule on top, unless one of them negates and
the other one is an operation.** -/
theorem rule_cases {e e' : Expr} (h : e.Grammatical) (h' : e'.Grammatical)
    (htokens : e.tokens = e'.tokens) :
    e.rule = e'.rule ∨ (e.rule = .unary ∧ e'.rule = .binary) ∨
      (e.rule = .binary ∧ e'.rule = .unary) := by
  by_cases hbinary : e.rule = .binary
  · rcases rule_of_tokens_eq_binary h h' htokens hbinary with hrule | hrule
    · exact .inr (.inr ⟨hbinary, hrule⟩)
    · exact .inl (hbinary.trans hrule.symm)
  by_cases hbinary' : e'.rule = .binary
  · rcases rule_of_tokens_eq_binary h' h htokens.symm hbinary' with hrule | hrule
    · exact .inr (.inl ⟨hrule, hbinary'⟩)
    · exact absurd hrule hbinary
  · exact .inl (rule_eq_of_ne_binary h h' htokens hbinary hbinary')

end Expr

/-! ### Rules that match the same window -/

theorem exists_findSome?_eq_some {α β : Type} {f : α → Option β} {xs : List α} {x : α} {b : β}
    (hx : x ∈ xs) (hb : f x = some b) : ∃ c, xs.findSome? f = some c := by
  rw [← Option.isSome_iff_exists, List.findSome?_isSome_iff]
  exact ⟨x, hx, by rw [hb]; rfl⟩

/-- A window with an expression lies within the tokens. -/
theorem within_of_resolve? (tokens : Array Token) (w : Window) {e : Expr}
    (h : resolve? tokens w = some e) : w.Within tokens := by
  have hlt : w.start < w.stop := by
    by_contra hle
    rw [resolve?_of_stop_le (Nat.le_of_not_lt hle)] at h
    cases h
  suffices hstop : w.stop ≤ tokens.size from ⟨Nat.le_of_lt hlt, hstop⟩
  rw [resolve?_eq_findSome?] at h
  obtain ⟨rule, -, hrule⟩ := List.exists_of_findSome?_eq_some h
  obtain ⟨s, hs, hbuild⟩ := List.exists_of_findSome?_eq_some hrule
  -- the last token of the window is there, or a part that ends with the window has an expression
  have hlast {t : Token} (ht : tokens[w.stop - 1]? = some t) : w.stop ≤ tokens.size := by
    obtain ⟨hsize, -⟩ := Array.getElem?_eq_some_iff.1 ht
    omega
  have hpart {i : Nat} {part : w.Part} {child : Expr} (hi : part.1 = ⟨i, w.stop⟩)
      (hchild : resolve? tokens part.1 = some child) : w.stop ≤ tokens.size := by
    have hin := within_of_resolve? tokens part.1 hchild
    rw [hi] at hin
    exact hin.stop_le
  cases rule with
  | value =>
    obtain ⟨t, hwidth, ht, -⟩ := valueShape?_eq_some_iff.1 (Option.mem_toList.1 hs)
    simp only [width] at hwidth
    exact hlast (by rwa [show w.stop - 1 = w.start by omega])
  | call =>
    rcases List.mem_append.1 hs with hs | hs
    · obtain ⟨_, _, _, _, hframe, -⟩ := callShape?_eq_some_iff.1 (Option.mem_toList.1 hs)
      exact hlast hframe.closingAt
    · obtain ⟨_, _, hs⟩ := List.mem_filterMap.1 hs
      obtain ⟨_, _, _, _, _, _, hframe, -⟩ := call2Shape?_eq_some_iff.1 hs
      exact hlast hframe.closingAt
  | unary =>
    obtain ⟨_, _, -, -, -, hoperand, rfl⟩ := unaryShape?_eq_some_iff.1 (Option.mem_toList.1 hs)
    obtain ⟨_, hchild, -⟩ := Shape.build_eq_some_iff.1 hbuild
    exact hpart hoperand hchild
  | paren =>
    obtain ⟨_, _, _, -, -, hclosing, -⟩ := parenShape?_eq_some_iff.1 (Option.mem_toList.1 hs)
    exact hlast hclosing
  | binary =>
    obtain ⟨_, _, hs⟩ := List.mem_filterMap.1 hs
    obtain ⟨_, _, _, -, -, hright, rfl⟩ := binaryShape?_eq_some_iff.1 hs
    obtain ⟨_, _, -, hchild, -⟩ := Shape.build_eq_some_iff.1 hbuild
    exact hpart hright hchild
termination_by w.width
decreasing_by exact part.2

namespace Rule

/-- The rule makes a tree of the window. -/
def Matches (tokens : Array Token) (w : Window) (rule : Rule) : Prop :=
  ∃ e, rule.find? tokens w = some e

theorem matches_iff {rule : Rule} :
    rule.Matches tokens w ↔ w.Within tokens ∧
      ∃ e : Expr, e.rule = rule ∧ e.Grammatical ∧ e.tokens = w.slice tokens := by
  have hsome : rule.Matches tokens w ↔ (rule.find? tokens w).isSome :=
    Option.isSome_iff_exists.symm
  refine ⟨fun h => ?_, ?_⟩
  · obtain ⟨e, he⟩ := h
    obtain ⟨found, hfound⟩ := exists_findSome?_eq_some rule.mem_all he
    rw [← resolve?_eq_findSome?] at hfound
    have hw := within_of_resolve? tokens w hfound
    exact ⟨hw, (find?_isSome_iff hw).1 (hsome.1 ⟨e, he⟩)⟩
  · rintro ⟨hw, h⟩
    exact hsome.2 ((find?_isSome_iff hw).2 h)

/-- **Two rules that match the same window are the same, or a minus and an operation.** -/
theorem Matches.cases {rule rule' : Rule} (h : rule.Matches tokens w)
    (h' : rule'.Matches tokens w) :
    rule = rule' ∨ (rule = .unary ∧ rule' = .binary) ∨ (rule = .binary ∧ rule' = .unary) := by
  obtain ⟨-, e, rfl, hgram, htokens⟩ := matches_iff.1 h
  obtain ⟨-, e', rfl, hgram', htokens'⟩ := matches_iff.1 h'
  exact Expr.rule_cases hgram hgram' (htokens.trans htokens'.symm)

/-- An operation that a minus leads can be read as the minus of an operation. -/
theorem Matches.unary_of_binary {t : Token} (h : Rule.binary.Matches tokens w)
    (ht : tokens[w.start]? = some t) (hk : t.kind = .unary) : Rule.unary.Matches tokens w := by
  obtain ⟨hw, e, -, hgram, htokens⟩ := matches_iff.1 h
  have hlt : w.start < w.stop := by
    refine hw.start_lt_of_ne_nil ?_
    rw [← htokens]
    exact e.tokens_ne_nil
  have hhead := hw.slice_eq_cons_iff.2 ⟨hlt, ht, rfl⟩
  by_contra hnone
  have hfind : Rule.unary.find? tokens w = none :=
    Option.eq_none_iff_forall_ne_some.2 fun e he => hnone ⟨e, he⟩
  have hlead := not_leadsWithUnary_of_find? hw hfind hgram htokens
  exact Expr.head_kind_ne_unary hgram hlead (htokens.trans hhead) hk

theorem rule_of_find? {rule : Rule} {e : Expr} (h : rule.find? tokens w = some e) :
    e.rule = rule := by
  obtain ⟨s, hs, hbuild⟩ := List.exists_of_findSome?_eq_some h
  rw [(Shape.build_eq_some_iff.1 hbuild).rule_eq, rule_eq_of_mem_shapes hs]

end Rule

/-! ### The separator of a call -/

/-- The separator at `i` leaves an expression on either side, within the brackets of a call. -/
structure SeparatesAt (tokens : Array Token) (w : Window) (i : Nat) : Prop where
  separator : ∃ t, tokens[i]? = some t ∧ t.kind = .separator
  first : ∃ e, resolve? tokens ⟨w.start + 2, i⟩ = some e
  second : ∃ e, resolve? tokens ⟨i + 1, w.stop - 1⟩ = some e

/-- What a separator of a call says of the tokens between its brackets. -/
theorem SeparatesAt.exists_slice {i : Nat} (h : SeparatesAt tokens w i) :
    ∃ (first : Expr) (t : Token) (rest : List Token), first.Grammatical ∧ t.kind = .separator ∧
      w.start + 2 ≤ i ∧ first.tokens.length = i - (w.start + 2) ∧
      (Window.mk (w.start + 2) (w.stop - 1)).slice tokens = first.tokens ++ t :: rest := by
  obtain ⟨t, ht, hk⟩ := h.separator
  obtain ⟨first, hfirst⟩ := h.first
  obtain ⟨second, hsecond⟩ := h.second
  have hin := within_of_resolve? _ _ hfirst
  have hin' := within_of_resolve? _ _ hsecond
  obtain ⟨hgram, htokens⟩ := resolve?_sound _ _ hin hfirst
  have hi : w.start + 2 ≤ i := hin.start_le
  have hi' : i + 1 ≤ w.stop - 1 := hin'.start_le
  have hinner : (Window.mk (w.start + 2) (w.stop - 1)).Within tokens :=
    within_mk (by omega) hin'.stop_le
  have hslice := hinner.slice_divide hi hi' ht
  rw [← htokens] at hslice
  refine ⟨first, t, _, hgram, hk, hi, ?_, hslice⟩
  rw [htokens, hin.length_slice]
  rfl

/-- **A call of two arguments is separated at one place.** -/
theorem SeparatesAt.unique {i j : Nat} (h : SeparatesAt tokens w i)
    (h' : SeparatesAt tokens w j) : i = j := by
  obtain ⟨first, t, rest, hgram, hk, hi, hlen, hslice⟩ := h.exists_slice
  obtain ⟨first', t', rest', hgram', hk', hj, hlen', hslice'⟩ := h'.exists_slice
  obtain ⟨htokens, -, -⟩ :=
    Expr.eq_of_append_separator hgram hgram' hk hk' (hslice.symm.trans hslice')
  rw [htokens] at hlen
  omega

/-- A shape of a call that can be built is separated at its place. -/
theorem separatesAt_of_build {i : Nat} {s : Shape w} {e : Expr}
    (hs : call2Shape? tokens w i = some s)
    (hbuild : s.build (fun part => resolve? tokens part.1) = some e) : SeparatesAt tokens w i := by
  obtain ⟨_, _, t, _, ⟨_, _⟩, ⟨_, _⟩, -, -, ht, hk, rfl, rfl, rfl⟩ := call2Shape?_eq_some_iff.1 hs
  obtain ⟨first, second, hfirst, hsecond, -⟩ := Shape.build_eq_some_iff.1 hbuild
  exact ⟨⟨t, ht, hk⟩, ⟨first, hfirst⟩, ⟨second, hsecond⟩⟩

/-- **Of the shapes that a rule lists only one can be built, unless they are operations.** -/
theorem Rule.shape_unique {rule : Rule} {s s' : Shape w} {e e' : Expr} (hrule : rule ≠ .binary)
    (hs : s ∈ rule.shapes tokens w) (hs' : s' ∈ rule.shapes tokens w)
    (hbuild : s.build (fun part => resolve? tokens part.1) = some e)
    (hbuild' : s'.build (fun part => resolve? tokens part.1) = some e') : s = s' := by
  have hsingle {o : Option (Shape w)} (hs : s ∈ o.toList) (hs' : s' ∈ o.toList) : s = s' :=
    Option.some.inj ((Option.mem_toList.1 hs).symm.trans (Option.mem_toList.1 hs'))
  -- the function tells calls of one argument from calls of two
  have hkind {s s' : Shape w} {i : Nat} (hs : callShape? tokens w = some s)
      (hs' : call2Shape? tokens w i = some s') : False := by
    obtain ⟨f, _, _, _, hframe, hf, -⟩ := callShape?_eq_some_iff.1 hs
    obtain ⟨f', _, _, _, _, _, hframe', hf', -⟩ := call2Shape?_eq_some_iff.1 hs'
    obtain rfl : f = f' := Option.some.inj (hframe.functionAt.symm.trans hframe'.functionAt)
    rw [hf] at hf'
    cases hf'
  cases rule with
  | value | unary | paren => exact hsingle hs hs'
  | call =>
    rcases List.mem_append.1 hs with hs | hs <;> rcases List.mem_append.1 hs' with hs' | hs'
    · exact hsingle hs hs'
    · obtain ⟨i, -, hi⟩ := List.mem_filterMap.1 hs'
      exact (hkind (Option.mem_toList.1 hs) hi).elim
    · obtain ⟨i, -, hi⟩ := List.mem_filterMap.1 hs
      exact (hkind (Option.mem_toList.1 hs') hi).elim
    · obtain ⟨i, -, hi⟩ := List.mem_filterMap.1 hs
      obtain ⟨j, -, hj⟩ := List.mem_filterMap.1 hs'
      obtain rfl : i = j :=
        (separatesAt_of_build hi hbuild).unique (separatesAt_of_build hj hbuild')
      exact Option.some.inj (hi.symm.trans hj)
  | binary => exact absurd rfl hrule

/-! ### Searching in another order -/

/-- An order in which to try the rules on a window, and the shapes of a rule.  A minus stays before
the operations, and operations stay in the order of their binding. -/
structure TrialOrder (tokens : Array Token) where
  rules : Window → List Rule
  shapes : (w : Window) → Rule → List (Shape w)
  rules_perm : ∀ w, (rules w).Perm Rule.all
  shapes_perm : ∀ w rule, (shapes w rule).Perm (rule.shapes tokens w)
  unary_first : ∀ w, (rules w).idxOf .unary < (rules w).idxOf .binary
  binding : ∀ w, shapes w .binary = Rule.binary.shapes tokens w

/-- The search that follows the order. -/
def TrialOrder.search (order : TrialOrder tokens) (w : Window) : Search Expr :=
  Search.remembering w <| (order.rules w).firstM fun rule =>
    (order.shapes w rule).firstM (Shape.build fun part => order.search part.1)
termination_by w.width
decreasing_by exact part.2

/-- If only one alternative can succeed, it is found wherever it stands. -/
theorem findSome?_eq_some_iff_of_unique {α β : Type} {f : α → Option β} {xs : List α}
    (hf : ∀ x ∈ xs, ∀ y ∈ xs, ∀ b c, f x = some b → f y = some c → x = y) {b : β} :
    xs.findSome? f = some b ↔ ∃ x ∈ xs, f x = some b := by
  refine ⟨List.exists_of_findSome?_eq_some, ?_⟩
  rintro ⟨x, hx, hb⟩
  obtain ⟨c, hc⟩ := exists_findSome?_eq_some hx hb
  obtain ⟨y, hy, hy'⟩ := List.exists_of_findSome?_eq_some hc
  obtain rfl := hf x hx y hy b c hb hy'
  rw [hc, ← hy', hb]

/-- The rule that is found first is the one rule that matches, if a minus is tried before the
operations. -/
theorem findSome?_rules_eq_some_iff {rules : List Rule} (hperm : rules.Perm Rule.all)
    (hunary : rules.idxOf .unary < rules.idxOf .binary) {e : Expr} :
    rules.findSome? (Rule.find? tokens w) = some e ↔
      ∃ rule : Rule, rule.find? tokens w = some e ∧
        (rule = .binary → Rule.unary.find? tokens w = none) := by
  refine ⟨exists_rule_of_findSome? hunary, ?_⟩
  rintro ⟨rule, hrule, hbinary⟩
  obtain ⟨e', he'⟩ := exists_findSome?_eq_some (hperm.mem_iff.2 rule.mem_all) hrule
  obtain ⟨rule', hrule', hbinary'⟩ := exists_rule_of_findSome? hunary he'
  have hmatch : rule.Matches tokens w := ⟨e, hrule⟩
  rcases hmatch.cases ⟨e', hrule'⟩ with rfl | ⟨rfl, rfl⟩ | ⟨rfl, rfl⟩
  · rw [he', ← hrule', hrule]
  · rw [hbinary' rfl] at hrule
    cases hrule
  · rw [hbinary rfl] at hrule'
    cases hrule'

namespace TrialOrder

variable (order : TrialOrder tokens)

/-- A rule finds the same tree in any order of its shapes. -/
theorem findSome?_shapes (w : Window) (rule : Rule) :
    (order.shapes w rule).findSome? (Shape.build fun part => resolve? tokens part.1) =
      rule.find? tokens w := by
  by_cases hrule : rule = .binary
  · rw [hrule, order.binding]
    rfl
  · have hperm := order.shapes_perm w rule
    refine Option.ext fun e => ?_
    rw [Rule.find?, findSome?_eq_some_iff_of_unique, findSome?_eq_some_iff_of_unique]
    · simp only [hperm.mem_iff]
    · intro s hs s' hs' e e' he he'
      exact Rule.shape_unique hrule hs hs' he he'
    · intro s hs s' hs' e e' he he'
      exact Rule.shape_unique hrule (hperm.mem_iff.1 hs) (hperm.mem_iff.1 hs') he he'

/-- The rules find the same tree in this order. -/
theorem firstM_rules (w : Window) :
    ((order.rules w).firstM fun rule =>
      (order.shapes w rule).firstM (Shape.build fun part => resolve? tokens part.1)) =
      resolve? tokens w := by
  simp only [firstM_eq_findSome?, order.findSome?_shapes]
  rw [resolve?_eq_findSome?]
  refine Option.ext fun e => ?_
  have husual : Rule.all.idxOf .unary < Rule.all.idxOf .binary := by decide
  rw [findSome?_rules_eq_some_iff (order.rules_perm w) (order.unary_first w),
    findSome?_rules_eq_some_iff (List.Perm.refl Rule.all) husual]

/-- **A search finds the same tree in any order of trial.** -/
theorem gives_search (w : Window) :
    Search.Gives tokens (order.search w) (resolve? tokens w) := by
  rw [search]
  refine Search.Gives.remembering ?_
  rw [← order.firstM_rules w]
  refine Search.Gives.firstM _ fun rule _ => Search.Gives.firstM _ fun s _ => ?_
  exact Search.gives_build (fun part => gives_search part.1) s
termination_by w.width
decreasing_by exact part.2

/-- The rules and their shapes from the last to the first, as far as that is free. -/
def backwards (tokens : Array Token) : TrialOrder tokens where
  rules _ := [.unary, .binary, .paren, .call, .value]
  shapes w rule :=
    if rule = .binary then rule.shapes tokens w else (rule.shapes tokens w).reverse
  rules_perm _ := by decide
  shapes_perm w rule := by
    split
    · exact List.Perm.refl _
    · exact List.reverse_perm _
  unary_first _ := by decide
  binding _ := if_pos rfl

/-- Backwards, the inner separator of `log(e,log(z,i))` is tried before the outer one. -/
example :
    let tokens : Array Token :=
      #[⟨.function2, "log", 0⟩, ⟨.leftParen, "(", 3⟩, ⟨.constant, "e", 4⟩, ⟨.separator, ",", 5⟩,
        ⟨.function2, "log", 6⟩, ⟨.leftParen, "(", 9⟩, ⟨.letter, "z", 10⟩, ⟨.separator, ",", 11⟩,
        ⟨.constant, "i", 12⟩, ⟨.rightParen, ")", 13⟩, ⟨.rightParen, ")", 14⟩]
    (((backwards tokens).search ⟨0, 11⟩).run ∅).1.map Expr.toText =
      some "(log e (log z i))" := by cbv

end TrialOrder

/-- One rule on a window, with the search for the parts. -/
def Search.tryRule (tokens : Array Token) (w : Window) (rule : Rule) : Search Expr :=
  (rule.shapes tokens w).firstM (Shape.build fun part => resolve tokens part.1)

theorem Search.gives_tryRule (tokens : Array Token) (w : Window) (rule : Rule) :
    Gives tokens (tryRule tokens w rule) (rule.find? tokens w) := by
  rw [Rule.find?, ← firstM_eq_findSome?]
  refine Gives.firstM _ fun s _ => ?_
  exact gives_build (fun part => gives_resolve tokens part.1) s

/-- **The order of trial does not show, but for the minus that comes before the operations.**  Of
values, calls, brackets and operations at most one rule matches a window, and a minus shares its
windows with operations only.  There, where an operation starts with a minus, both match and find
different trees.  A call of two arguments is separated at one place.  So what the search finds, with
whatever its memo holds, it also finds when it tries rules and shapes in another order. -/
theorem trial_order_never_shows (tokens : Array Token) (w : Window) :
    (∀ rule : Rule, Search.Gives tokens (Search.tryRule tokens w rule) (rule.find? tokens w)) ∧
      (∀ rule rule' : Rule, rule ≠ .unary → rule' ≠ .unary → rule.Matches tokens w →
        rule'.Matches tokens w → rule = rule') ∧
      (Rule.unary.Matches tokens w → ¬ Rule.value.Matches tokens w ∧
        ¬ Rule.call.Matches tokens w ∧ ¬ Rule.paren.Matches tokens w) ∧
      (∀ t, tokens[w.start]? = some t → t.kind = .unary → Rule.binary.Matches tokens w →
        Rule.unary.Matches tokens w) ∧
      (∀ e e', Rule.unary.find? tokens w = some e → Rule.binary.find? tokens w = some e' →
        e ≠ e') ∧
      (∀ i j, SeparatesAt tokens w i → SeparatesAt tokens w j → i = j) ∧
      Search.Gives tokens (Search.resolve tokens w) (resolve? tokens w) ∧
      ∀ order : TrialOrder tokens, Search.Gives tokens (order.search w) (resolve? tokens w) := by
  have hexcludes {rule : Rule} (h : Rule.unary.Matches tokens w) (hne : rule ≠ .unary)
      (hne' : rule ≠ .binary) : ¬ rule.Matches tokens w := by
    intro hrule
    rcases h.cases hrule with rfl | ⟨-, rfl⟩ | ⟨-, rfl⟩ <;> contradiction
  refine ⟨Search.gives_tryRule tokens w, ?_, ?_, ?_, ?_, fun _ _ => SeparatesAt.unique,
    Search.gives_resolve tokens w, fun order => order.gives_search w⟩
  · intro rule rule' hne hne' h h'
    rcases h.cases h' with heq | ⟨rfl, -⟩ | ⟨-, rfl⟩
    · exact heq
    · exact absurd rfl hne
    · exact absurd rfl hne'
  · intro h
    exact ⟨hexcludes h (by decide) (by decide), hexcludes h (by decide) (by decide),
      hexcludes h (by decide) (by decide)⟩
  · intro t ht hk h
    exact h.unary_of_binary ht hk
  · rintro e e' h h' rfl
    have hrule := (Rule.rule_of_find? h).symm.trans (Rule.rule_of_find? h')
    cases hrule

/-- In `-z+i` the minus negates the sum, for it is tried first. -/
example :
    let tokens : Array Token :=
      #[⟨.unary, "-", 0⟩, ⟨.letter, "z", 1⟩, ⟨.binary, "+", 2⟩, ⟨.constant, "i", 3⟩]
    (Rule.unary.find? tokens ⟨0, 4⟩).map Expr.toText = some "(- (+ z i))" ∧
      (Rule.binary.find? tokens ⟨0, 4⟩).map Expr.toText = some "(+ (- z) i)" ∧
      (resolve? tokens ⟨0, 4⟩).map Expr.toText = some "(- (+ z i))" := by
  refine ⟨?_, ?_, ?_⟩ <;> cbv

end Branchwise
