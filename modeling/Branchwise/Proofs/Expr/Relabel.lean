/-
Parsing goes by kinds and operators alone.

Of a token the grammar asks its kind, and the order of splits asks which operator it writes.
Neither its place nor the letter of the variable nor the digits of a number count.  So tokens may
be relabelled before parsing or after it, and a sequence is in the language if its relabelled form
is.
-/
import Branchwise.Proofs.Expr.Precedence

namespace Branchwise

/-- A token whose spelling says nothing: the variable is the same under every letter, and a
number has its value in its kind. -/
def Token.IsNameless (t : Token) : Prop :=
  t.kind = .letter ∨ ∃ x, t.kind = .number x

/-- The relabelling changes no kind and no name. -/
structure Token.Keeps (f : Token → Token) : Prop where
  kind : ∀ t, (f t).kind = t.kind
  literal : ∀ t, ¬ t.IsNameless → (f t).literal = t.literal

namespace Token.Keeps

variable {f : Token → Token} (hf : Token.Keeps f)
include hf

theorem operator? (t : Token) : (f t).operator? = t.operator? := by
  unfold Token.operator?
  rw [hf.kind]
  by_cases h : t.kind = .binary
  · rw [hf.literal t (by simp [IsNameless, h])]
  · simp [h]

theorem isValue (t : Token) : (f t).isValue = t.isValue := by
  rw [Token.isValue, Token.isValue, hf.kind]

theorem isOperator (t : Token) : (f t).IsOperator ↔ t.IsOperator := by
  rw [isOperator_iff, isOperator_iff, hf.operator?]

theorem yieldsLeft (op t : Token) : (f op).YieldsLeft (f t) ↔ op.YieldsLeft t := by
  simp only [YieldsLeft, level, GroupsRight, hf.operator?]

theorem yieldsRight (op t : Token) : (f op).YieldsRight (f t) ↔ op.YieldsRight t := by
  simp only [YieldsRight, level, GroupsRight, hf.operator?]

end Token.Keeps

namespace Expr

variable {f : Token → Token}

/-- The tree with every token relabelled. -/
def relabel (f : Token → Token) : Expr → Expr
  | value token => value (f token)
  | call function opening argument closing =>
    call (f function) (f opening) (relabel f argument) (f closing)
  | call2 function opening first separator second closing =>
    call2 (f function) (f opening) (relabel f first) (f separator) (relabel f second) (f closing)
  | unary operator operand => unary (f operator) (relabel f operand)
  | paren opening inner closing => paren (f opening) (relabel f inner) (f closing)
  | binary left operator right => binary (relabel f left) (f operator) (relabel f right)

@[simp] theorem tokens_relabel (e : Expr) : (e.relabel f).tokens = e.tokens.map f := by
  induction e <;> simp_all [relabel, tokens]

/-- A tree over relabelled tokens is a relabelled tree. -/
theorem exists_relabel {e : Expr} {ts : List Token} (h : ts.map f = e.tokens) :
    ∃ e' : Expr, e'.relabel f = e ∧ e'.tokens = ts := by
  induction e generalizing ts with
  | value t =>
    obtain ⟨t', rfl, rfl⟩ := List.map_eq_singleton_iff.1 h
    exact ⟨value t', rfl, rfl⟩
  | call t opening argument closing ih =>
    obtain ⟨t', rest, rfl, rfl, hrest⟩ := List.map_eq_cons_iff.1 h
    obtain ⟨opening', rest, rfl, rfl, hrest'⟩ := List.map_eq_cons_iff.1 hrest
    obtain ⟨inner, last, rfl, hinner, hlast⟩ := List.map_eq_append_iff.1 hrest'
    obtain ⟨closing', rfl, rfl⟩ := List.map_eq_singleton_iff.1 hlast
    obtain ⟨argument', rfl, rfl⟩ := ih hinner
    exact ⟨call t' opening' argument' closing', rfl, rfl⟩
  | call2 t opening first separator second closing ihFirst ihSecond =>
    obtain ⟨front, last, rfl, hfront, hlast⟩ := List.map_eq_append_iff.1 h
    obtain ⟨closing', rfl, rfl⟩ := List.map_eq_singleton_iff.1 hlast
    obtain ⟨t', rest, rfl, rfl, hrest⟩ := List.map_eq_cons_iff.1 hfront
    obtain ⟨opening', rest, rfl, rfl, hrest'⟩ := List.map_eq_cons_iff.1 hrest
    obtain ⟨inner, behind, rfl, hinner, hbehind⟩ := List.map_eq_append_iff.1 hrest'
    obtain ⟨separator', inner', rfl, rfl, hinner'⟩ := List.map_eq_cons_iff.1 hbehind
    obtain ⟨first', rfl, rfl⟩ := ihFirst hinner
    obtain ⟨second', rfl, rfl⟩ := ihSecond hinner'
    exact ⟨call2 t' opening' first' separator' second' closing', rfl, rfl⟩
  | unary op operand ih =>
    obtain ⟨op', rest, rfl, rfl, hrest⟩ := List.map_eq_cons_iff.1 h
    obtain ⟨operand', rfl, rfl⟩ := ih hrest
    exact ⟨unary op' operand', rfl, rfl⟩
  | paren opening inner closing ih =>
    obtain ⟨opening', rest, rfl, rfl, hrest⟩ := List.map_eq_cons_iff.1 h
    obtain ⟨front, last, rfl, hinner, hlast⟩ := List.map_eq_append_iff.1 hrest
    obtain ⟨closing', rfl, rfl⟩ := List.map_eq_singleton_iff.1 hlast
    obtain ⟨inner', rfl, rfl⟩ := ih hinner
    exact ⟨paren opening' inner' closing', rfl, rfl⟩
  | binary left op right ihLeft ihRight =>
    obtain ⟨front, back, rfl, hleft, hback⟩ := List.map_eq_append_iff.1 h
    obtain ⟨op', back, rfl, rfl, hright⟩ := List.map_eq_cons_iff.1 hback
    obtain ⟨left', rfl, rfl⟩ := ihLeft hleft
    obtain ⟨right', rfl, rfl⟩ := ihRight hright
    exact ⟨binary left' op' right', rfl, rfl⟩

/-! ### What parsing asks of a tree -/

theorem outerOperators_relabel (e : Expr) :
    (e.relabel f).outerOperators = e.outerOperators.map f := by
  induction e <;> simp_all [relabel, outerOperators]

theorem leadsWithUnary_relabel (e : Expr) :
    (e.relabel f).LeadsWithUnary ↔ e.LeadsWithUnary := by
  induction e with
  | binary left op right ih _ => exact ih
  | _ => rfl

theorem grammatical_relabel (hf : Token.Keeps f) (e : Expr) :
    (e.relabel f).Grammatical ↔ e.Grammatical := by
  induction e <;> simp_all [relabel, Grammatical, hf.kind, hf.isValue, hf.isOperator]

theorem canonical_relabel (hf : Token.Keeps f) (e : Expr) :
    (e.relabel f).Canonical ↔ e.Canonical := by
  induction e <;>
    simp_all [relabel, Canonical, leadsWithUnary_relabel, outerOperators_relabel, hf.yieldsLeft,
      hf.yieldsRight]

end Expr

/-- **Relabelling commutes with parsing.** -/
theorem parse_map_eq_ok_iff {f : Token → Token} (hf : Token.Keeps f) {ts : List Token} {e : Expr} :
    parse (ts.map f) = .ok e ↔ ∃ e', parse ts = .ok e' ∧ e'.relabel f = e := by
  rw [parse_eq_ok_iff]
  refine ⟨?_, ?_⟩
  · intro h
    obtain ⟨hgram, hcanon, htokens⟩ := h
    obtain ⟨e', rfl, rfl⟩ := Expr.exists_relabel htokens.symm
    rw [Expr.grammatical_relabel hf] at hgram
    rw [Expr.canonical_relabel hf] at hcanon
    exact ⟨e', parse_eq_ok_iff.2 ⟨hgram, hcanon, rfl⟩, rfl⟩
  · intro h
    obtain ⟨e', he', rfl⟩ := h
    obtain ⟨hgram, hcanon, rfl⟩ := parse_eq_ok_iff.1 he'
    exact ⟨(Expr.grammatical_relabel hf e').2 hgram, (Expr.canonical_relabel hf e').2 hcanon,
      Expr.tokens_relabel e'⟩

end Branchwise
