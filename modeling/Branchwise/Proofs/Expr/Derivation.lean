/-
The grammar of expressions.

It is ambiguous on purpose: one production for an operation, without levels of binding.
`Derivable` says of a sequence of tokens that the grammar produces it and does not mention
trees; `Expr.Grammatical` says of a tree that each of its nodes is a production.  The two
agree, the tokens of a grammatical tree being what it derives.
-/
import Branchwise.Expr.Shape

namespace Branchwise

/-- A token that writes one of the five operations. -/
def Token.IsOperator (t : Token) : Prop :=
  t.kind = .binary ∧ t.literal ∈ ["+", "-", "*", "/", "^"]

instance (t : Token) : Decidable t.IsOperator :=
  inferInstanceAs (Decidable (_ ∧ _))

/-- The grammar `E ::= value | f ( E ) | g ( E , E ) | - E | ( E ) | E op E`. -/
inductive Derivable : List Token → Prop
  | value {t : Token} (ht : t.isValue) : Derivable [t]
  | call {f opening closing : Token} {argument : List Token}
      (hf : f.kind = .function1) (hopen : opening.kind = .leftParen)
      (hclose : closing.kind = .rightParen) (hargument : Derivable argument) :
      Derivable (f :: opening :: argument ++ [closing])
  | call2 {f opening separator closing : Token} {first second : List Token}
      (hf : f.kind = .function2) (hopen : opening.kind = .leftParen)
      (hsep : separator.kind = .separator) (hclose : closing.kind = .rightParen)
      (hfirst : Derivable first) (hsecond : Derivable second) :
      Derivable (f :: opening :: first ++ separator :: second ++ [closing])
  | unary {op : Token} {operand : List Token} (hop : op.kind = .unary)
      (hoperand : Derivable operand) : Derivable (op :: operand)
  | paren {opening closing : Token} {inner : List Token} (hopen : opening.kind = .leftParen)
      (hclose : closing.kind = .rightParen) (hinner : Derivable inner) :
      Derivable (opening :: inner ++ [closing])
  | binary {op : Token} {left right : List Token} (hop : op.IsOperator)
      (hleft : Derivable left) (hright : Derivable right) : Derivable (left ++ op :: right)

/-- Each node of the tree is a production of the grammar. -/
def Expr.Grammatical : Expr → Prop
  | .value token => token.isValue
  | .call function opening argument closing =>
    function.kind = .function1 ∧ opening.kind = .leftParen ∧ closing.kind = .rightParen ∧
      argument.Grammatical
  | .call2 function opening first separator second closing =>
    function.kind = .function2 ∧ opening.kind = .leftParen ∧ separator.kind = .separator ∧
      closing.kind = .rightParen ∧ first.Grammatical ∧ second.Grammatical
  | .unary operator operand => operator.kind = .unary ∧ operand.Grammatical
  | .paren opening inner closing =>
    opening.kind = .leftParen ∧ closing.kind = .rightParen ∧ inner.Grammatical
  | .binary left operator right =>
    operator.IsOperator ∧ left.Grammatical ∧ right.Grammatical

/-! ### Trees and derivations -/

theorem Derivable.ne_nil {ts : List Token} (h : Derivable ts) : ts ≠ [] := by
  cases h <;> simp

theorem Expr.Grammatical.derivable {e : Expr} (h : e.Grammatical) : Derivable e.tokens := by
  induction e with
  | value token => exact .value h
  | call function opening argument closing ih =>
    obtain ⟨hf, hopen, hclose, hargument⟩ := h
    exact .call hf hopen hclose (ih hargument)
  | call2 function opening first separator second closing ihFirst ihSecond =>
    obtain ⟨hf, hopen, hsep, hclose, hfirst, hsecond⟩ := h
    exact .call2 hf hopen hsep hclose (ihFirst hfirst) (ihSecond hsecond)
  | unary operator operand ih => exact .unary h.1 (ih h.2)
  | paren opening inner closing ih =>
    obtain ⟨hopen, hclose, hinner⟩ := h
    exact .paren hopen hclose (ih hinner)
  | binary left operator right ihLeft ihRight =>
    obtain ⟨hop, hleft, hright⟩ := h
    exact .binary hop (ihLeft hleft) (ihRight hright)

/-- **What the grammar produces is what its trees spell.** -/
theorem derivable_iff_exists_tree {ts : List Token} :
    Derivable ts ↔ ∃ e : Expr, e.Grammatical ∧ e.tokens = ts := by
  refine ⟨?_, ?_⟩
  · intro h
    induction h with
    | value ht => exact ⟨.value _, ht, rfl⟩
    | call hf hopen hclose _ ih =>
      obtain ⟨argument, hargument, rfl⟩ := ih
      exact ⟨.call _ _ argument _, ⟨hf, hopen, hclose, hargument⟩, rfl⟩
    | call2 hf hopen hsep hclose _ _ ihFirst ihSecond =>
      obtain ⟨first, hfirst, rfl⟩ := ihFirst
      obtain ⟨second, hsecond, rfl⟩ := ihSecond
      exact ⟨.call2 _ _ first _ second _, ⟨hf, hopen, hsep, hclose, hfirst, hsecond⟩, rfl⟩
    | unary hop _ ih =>
      obtain ⟨operand, hoperand, rfl⟩ := ih
      exact ⟨.unary _ operand, ⟨hop, hoperand⟩, rfl⟩
    | paren hopen hclose _ ih =>
      obtain ⟨inner, hinner, rfl⟩ := ih
      exact ⟨.paren _ inner _, ⟨hopen, hclose, hinner⟩, rfl⟩
    | binary hop _ _ ihLeft ihRight =>
      obtain ⟨left, hleft, rfl⟩ := ihLeft
      obtain ⟨right, hright, rfl⟩ := ihRight
      exact ⟨.binary left _ right, ⟨hop, hleft, hright⟩, rfl⟩
  · intro h
    obtain ⟨e, he, rfl⟩ := h
    exact he.derivable

/-- A leading minus leaves an expression behind it, whatever it was applied to. -/
theorem Derivable.tail_of_unary {op : Token} {rest : List Token} (h : Derivable (op :: rest))
    (hop : op.kind = .unary) : Derivable rest := by
  generalize hts : op :: rest = ts at h
  induction h generalizing rest with
  | value ht =>
    obtain ⟨rfl, -⟩ := List.cons.inj hts
    simp [Token.isValue, Token.Kind.isValue, hop] at ht
  | call hf => simp_all
  | call2 hf => simp_all
  | unary _ hoperand =>
    obtain ⟨rfl, rfl⟩ := List.cons.inj hts
    exact hoperand
  | paren hopen => simp_all
  | @binary op' left right hop' hleft hright ih _ =>
    -- The minus leads the left operand; it gives way there and the operation stays.
    cases left with
    | nil => exact absurd rfl hleft.ne_nil
    | cons head tail =>
      obtain ⟨rfl, rfl⟩ := List.cons.inj hts
      exact .binary hop' (ih rfl) hright

end Branchwise
