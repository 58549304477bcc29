/-
Canonical trees: the binding of operators, said of a tree alone.

The grammar is ambiguous in two ways only.  Of several operators outside all brackets any one
may become the top of the tree, and a leading minus may take more or less of what follows it.
A canonical tree settles both: each operation is led by no minus and binds no tighter than the
operators outside brackets in its operands, with equals on the side to which its level groups.
That leaves one canonical tree for a sequence of tokens (`Expr.Canonical.unique`).
-/
import Branchwise.Proofs.Expr.Depth

namespace Branchwise

namespace Token

/-- How tightly the operator that a token writes binds.  Sums bind loosest and powers
tightest. -/
def level (t : Token) : Nat :=
  match t.operator? with
  | some .add | some .sub => 1
  | some .mul | some .div => 2
  | some .pow => 3
  | none => 0

/-- Powers group to the right, so the leftmost of them is outermost. -/
def GroupsRight (t : Token) : Prop :=
  t.operator? = some .pow

instance (t : Token) : Decidable t.GroupsRight :=
  inferInstanceAs (Decidable (_ = _))

theorem groupsRight_iff_level {t : Token} : t.GroupsRight ↔ t.level = 3 := by
  unfold GroupsRight level
  rcases t.operator? with _ | _ | _ | _ | _ | _ <;> simp

/-- An operator that may stand in the left operand of `op`, outside brackets. -/
def YieldsLeft (op t : Token) : Prop :=
  op.level < t.level ∨ op.level = t.level ∧ ¬ op.GroupsRight

/-- An operator that may stand in the right operand of `op`, outside brackets. -/
def YieldsRight (op t : Token) : Prop :=
  op.level < t.level ∨ op.level = t.level ∧ op.GroupsRight

/-- Of two operators, either the right one is in the left one's operand or the other way
round. -/
theorem not_yieldsLeft_of_yieldsRight {op t : Token} (h : op.YieldsRight t) :
    ¬ t.YieldsLeft op := by
  unfold YieldsRight YieldsLeft at *
  rw [groupsRight_iff_level] at *
  omega

end Token

namespace Expr

/-- The first token of the tree negates. -/
def LeadsWithUnary : Expr → Prop
  | .unary .. => True
  | .binary left _ _ => left.LeadsWithUnary
  | _ => False

/-- Every operation of the tree is led by no minus and is outermost among the operators of its
window that stand outside all brackets. -/
def Canonical : Expr → Prop
  | .value _ => True
  | .call _ _ argument _ => argument.Canonical
  | .call2 _ _ first _ second _ => first.Canonical ∧ second.Canonical
  | .unary _ operand => operand.Canonical
  | .paren _ inner _ => inner.Canonical
  | .binary left op right =>
    ¬ left.LeadsWithUnary ∧ (∀ t ∈ left.outerOperators, op.YieldsLeft t) ∧
      (∀ t ∈ right.outerOperators, op.YieldsRight t) ∧ left.Canonical ∧ right.Canonical

/-! ### What the tokens tell of a tree -/

theorem head_kind_ne_unary {e : Expr} {t : Token} {rest : List Token} (h : e.Grammatical)
    (hlead : ¬ e.LeadsWithUnary) (htokens : e.tokens = t :: rest) : t.kind ≠ .unary := by
  induction e generalizing rest with
  | value token =>
    obtain ⟨rfl, -⟩ := List.cons.inj htokens
    intro hk
    simp [Grammatical, Token.isValue, Token.Kind.isValue, hk] at h
  | call | call2 | paren =>
    obtain ⟨rfl, -⟩ := List.cons.inj htokens
    simp [h.1]
  | unary => exact absurd trivial hlead
  | binary left op right ih _ =>
    obtain ⟨-, hleft, -⟩ := h
    cases hl : left.tokens with
    | nil => exact absurd hl left.tokens_ne_nil
    | cons head tail =>
      simp only [tokens, hl, List.cons_append, List.cons.injEq] at htokens
      obtain ⟨rfl, -⟩ := htokens
      exact ih hleft hlead hl

theorem LeadsWithUnary.exists_head {e : Expr} (h : e.Grammatical) (hlead : e.LeadsWithUnary) :
    ∃ t rest, e.tokens = t :: rest ∧ t.kind = .unary := by
  induction e with
  | value | call | call2 | paren => exact hlead.elim
  | unary op operand => exact ⟨op, operand.tokens, rfl, h.1⟩
  | binary left op right ih _ =>
    obtain ⟨t, rest, htokens, hk⟩ := ih h.2.1 hlead
    exact ⟨t, rest ++ op :: right.tokens, by simp [tokens, htokens], hk⟩

/-- Trees over the same tokens have the same operators outside brackets. -/
theorem mem_outerOperators_of_tokens_eq {e e' : Expr} {t : Token} (h : e.Grammatical)
    (h' : e'.Grammatical) (htokens : e.tokens = e'.tokens) (ht : t ∈ e.outerOperators) :
    t ∈ e'.outerOperators := by
  obtain ⟨hop, pre, post, hcut, hdepth⟩ := h.exists_cut ht
  obtain ⟨-, hbinary⟩ := h'.cut (htokens.symm.trans hcut) hdepth
  exact (hbinary hop.1).1

/-- The separator of a call is found by the brackets alone. -/
theorem eq_of_append_separator {first first' : Expr} {separator separator' : Token}
    {rest rest' : List Token} (h : first.Grammatical) (h' : first'.Grammatical)
    (hsep : separator.kind = .separator) (hsep' : separator'.kind = .separator)
    (heq : first.tokens ++ separator :: rest = first'.tokens ++ separator' :: rest') :
    first.tokens = first'.tokens ∧ separator = separator' ∧ rest = rest' := by
  rcases List.append_eq_append_iff.1 heq with ⟨mid, hmid, hmid'⟩ | ⟨mid, hmid, hmid'⟩
  · cases mid with
    | nil => simp_all
    | cons head mid =>
      -- the shorter argument would be followed by a separator outside brackets of the longer
      obtain ⟨rfl, -⟩ := List.cons.inj hmid'
      exact absurd hsep (h'.cut hmid h.balanced.total).1
  · cases mid with
    | nil => simp_all
    | cons head mid =>
      obtain ⟨rfl, -⟩ := List.cons.inj hmid'
      exact absurd hsep' (h.cut hmid h'.balanced.total).1

/-! ### One canonical tree for a sequence of tokens -/

/-- An outermost operator cannot stand within the left operand of another one. -/
theorem outermost_not_within {left right left' right' : Expr} {op op' : Token}
    {mid : List Token} (h : (binary left op right).Grammatical)
    (h' : (binary left' op' right').Grammatical) (hc : (binary left op right).Canonical)
    (hc' : (binary left' op' right').Canonical) (hleft : left'.tokens = left.tokens ++ op :: mid)
    (hright : right.tokens = mid ++ op' :: right'.tokens) : False := by
  obtain ⟨hop, hgram, hgramRight⟩ := h
  obtain ⟨hop', hgram', -⟩ := h'
  obtain ⟨-, -, hyield, -, -⟩ := hc
  obtain ⟨-, hyield', -, -, -⟩ := hc'
  have hmid : bracketDepth mid = 0 := by
    have htotal := hgram'.balanced.total
    rw [hleft] at htotal
    simpa [hgram.balanced.total, Token.rise_of_isOperator hop] using htotal
  have hmem := ((hgram'.cut hleft hgram.balanced.total).2 hop.1).1
  have hmem' := ((hgramRight.cut hright hmid).2 hop'.1).1
  exact Token.not_yieldsLeft_of_yieldsRight (hyield op' hmem') (hyield' op hmem)

/-- Two canonical operations over the same tokens are split at the same place. -/
theorem binary_split_unique {left right left' right' : Expr} {op op' : Token}
    (h : (binary left op right).Grammatical) (h' : (binary left' op' right').Grammatical)
    (hc : (binary left op right).Canonical) (hc' : (binary left' op' right').Canonical)
    (htokens : (binary left op right).tokens = (binary left' op' right').tokens) :
    left.tokens = left'.tokens ∧ op = op' ∧ right.tokens = right'.tokens := by
  rcases List.append_eq_append_iff.1 htokens with ⟨mid, hmid, hmid'⟩ | ⟨mid, hmid, hmid'⟩
  · cases mid with
    | nil => simp_all
    | cons head mid =>
      obtain ⟨rfl, hright⟩ := List.cons.inj hmid'
      exact (outermost_not_within h h' hc hc' hmid hright).elim
  · cases mid with
    | nil => simp_all
    | cons head mid =>
      obtain ⟨rfl, hright⟩ := List.cons.inj hmid'
      exact (outermost_not_within h' h hc' hc hmid hright).elim

/-- Where a canonical tree is an operation, every tree over the tokens is. -/
theorem exists_binary_of_tokens_eq {left right e : Expr} {op : Token}
    (h : (binary left op right).Grammatical) (hc : (binary left op right).Canonical)
    (he : e.Grammatical) (htokens : (binary left op right).tokens = e.tokens) :
    ∃ left' op' right', e = .binary left' op' right' := by
  have hmem := mem_outerOperators_of_tokens_eq h he htokens (t := op)
    (by simp [outerOperators])
  cases e with
  | value | call | call2 | paren => simp [outerOperators] at hmem
  | unary op' operand => exact absurd he.1 (head_kind_ne_unary h hc.1 htokens)
  | binary left' op' right' => exact ⟨left', op', right', rfl⟩

/-- Canonical trees over the same tokens have the same node on top. -/
theorem rootName_eq_of_tokens_eq {e e' : Expr} (hc : e.Canonical) (hc' : e'.Canonical)
    (h : e.Grammatical) (h' : e'.Grammatical) (htokens : e.tokens = e'.tokens) :
    e.rootName = e'.rootName := by
  cases e with
  | binary left op right =>
    obtain ⟨_, _, _, rfl⟩ := exists_binary_of_tokens_eq h hc h' htokens
    rfl
  | _ =>
    cases e' with
    | binary left op right =>
      obtain ⟨_, _, _, hne⟩ := exists_binary_of_tokens_eq h' hc' h htokens.symm
      contradiction
    | _ =>
      -- what is no operation is told by its first token
      grind [tokens, Grammatical, rootName, Token.isValue, Token.Kind.isValue]

/-- **A sequence of tokens has at most one canonical tree.** -/
theorem Canonical.unique {e e' : Expr} (hc : e.Canonical) (hc' : e'.Canonical)
    (h : e.Grammatical) (h' : e'.Grammatical) (htokens : e.tokens = e'.tokens) : e = e' := by
  induction e generalizing e' with
  | value t =>
    have hroot := rootName_eq_of_tokens_eq hc hc' h h' htokens
    cases e' with
    | value t' =>
      obtain ⟨rfl, -⟩ := List.cons.inj htokens
      rfl
    | _ => simp [rootName] at hroot
  | call f opening argument closing ih =>
    have hroot := rootName_eq_of_tokens_eq hc hc' h h' htokens
    cases e' with
    | call f' opening' argument' closing' =>
      obtain ⟨-, -, -, hgram⟩ := h
      obtain ⟨-, -, -, hgram'⟩ := h'
      simp only [tokens, List.cons_append, List.cons.injEq, List.append_singleton_inj] at htokens
      obtain ⟨rfl, rfl, htokens, rfl⟩ := htokens
      have hcanon' : argument'.Canonical := hc'
      rw [ih hc hcanon' hgram hgram' htokens]
    | _ => simp [rootName] at hroot
  | call2 f opening first separator second closing ihFirst ihSecond =>
    have hroot := rootName_eq_of_tokens_eq hc hc' h h' htokens
    cases e' with
    | call2 f' opening' first' separator' second' closing' =>
      obtain ⟨-, -, hsep, -, hgram, hgramSecond⟩ := h
      obtain ⟨-, -, hsep', -, hgram', hgramSecond'⟩ := h'
      simp only [tokens, List.cons_append, List.cons.injEq, List.append_singleton_inj] at htokens
      obtain ⟨rfl, rfl, htokens, rfl⟩ := htokens
      obtain ⟨hfirst, rfl, hsecond⟩ := eq_of_append_separator hgram hgram' hsep hsep' htokens
      rw [ihFirst hc.1 hc'.1 hgram hgram' hfirst,
        ihSecond hc.2 hc'.2 hgramSecond hgramSecond' hsecond]
    | _ => simp [rootName] at hroot
  | unary op operand ih =>
    have hroot := rootName_eq_of_tokens_eq hc hc' h h' htokens
    cases e' with
    | unary op' operand' =>
      obtain ⟨rfl, hrest⟩ := List.cons.inj htokens
      have hcanon' : operand'.Canonical := hc'
      rw [ih hc hcanon' h.2 h'.2 hrest]
    | _ => simp [rootName] at hroot
  | paren opening inner closing ih =>
    have hroot := rootName_eq_of_tokens_eq hc hc' h h' htokens
    cases e' with
    | paren opening' inner' closing' =>
      obtain ⟨-, -, hgram⟩ := h
      obtain ⟨-, -, hgram'⟩ := h'
      simp only [tokens, List.cons_append, List.cons.injEq, List.append_singleton_inj] at htokens
      obtain ⟨rfl, htokens, rfl⟩ := htokens
      have hcanon' : inner'.Canonical := hc'
      rw [ih hc hcanon' hgram hgram' htokens]
    | _ => simp [rootName] at hroot
  | binary left op right ihLeft ihRight =>
    have hroot := rootName_eq_of_tokens_eq hc hc' h h' htokens
    cases e' with
    | binary left' op' right' =>
      obtain ⟨hleft, rfl, hright⟩ := binary_split_unique h h' hc hc' htokens
      obtain ⟨-, hgram, hgramRight⟩ := h
      obtain ⟨-, hgram', hgramRight'⟩ := h'
      obtain ⟨-, -, -, hcanon, hcanonRight⟩ := hc
      obtain ⟨-, -, -, hcanon', hcanonRight'⟩ := hc'
      rw [ihLeft hcanon hcanon' hgram hgram' hleft,
        ihRight hcanonRight hcanonRight' hgramRight hgramRight' hright]
    | _ => simp [rootName] at hroot

end Expr

end Branchwise
