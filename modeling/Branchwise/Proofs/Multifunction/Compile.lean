/-
What a sequence of tokens means, put together from what its parts mean.

The meaning is found in two stages, a tree for the tokens and a function for the tree, and both
may fail.  `Compiles` says that neither does.  Each way of bracketing has its lemma here: a group
means what is inside, a call applies its function to the meaning of the argument, and an
operation between two groups is split exactly there.  Places do not matter to a meaning, nor does
the spelling of the variable or of a number.
-/
import Branchwise.Multifunction.Compile
import Branchwise.Proofs.Expr.Relabel
import Branchwise.Proofs.Failure

namespace Branchwise

theorem lookUp_eq_ok_iff {α : Type} [Named α] {s : String} {a : α} :
    lookUp α s = .ok a ↔ Named.name a = s := by
  rw [lookUp, ← Named.ofName?_eq_some_iff]
  split <;> simp_all

/-! ### Functions of trees, node by node -/

namespace Multifunction

variable {opening separator closing : Token} {f : Multifunction}

theorem ofExpr_unary_eq_ok_iff {op : Token} {operand : Expr} :
    ofExpr (.unary op operand) = .ok f ↔
      op.literal = Named.name Operator.sub ∧ ∃ g, ofExpr operand = .ok g ∧ negate g = f := by
  rw [ofExpr]
  split <;> simp_all [bind_eq_ok_iff, pure, Except.pure]

theorem ofExpr_binary_eq_ok_iff {left right : Expr} {op : Token} :
    ofExpr (.binary left op right) = .ok f ↔
      ∃ name : Operator, Named.name name = op.literal ∧ ∃ l, ofExpr left = .ok l ∧
        ∃ r, ofExpr right = .ok r ∧ binary name l r = f := by
  simp [ofExpr, bind_eq_ok_iff, lookUp_eq_ok_iff, pure, Except.pure]

theorem ofExpr_call_eq_ok_iff {t : Token} {argument : Expr} :
    ofExpr (.call t opening argument closing) = .ok f ↔
      ∃ name : Function, Named.name name = t.literal ∧ ∃ g, ofExpr argument = .ok g ∧
        call name g = f := by
  simp [ofExpr, bind_eq_ok_iff, lookUp_eq_ok_iff, pure, Except.pure]

theorem ofExpr_call2_eq_ok_iff {t : Token} {first second : Expr} :
    ofExpr (.call2 t opening first separator second closing) = .ok f ↔
      ∃ name : Function2, Named.name name = t.literal ∧ ∃ g, ofExpr first = .ok g ∧
        ∃ g', ofExpr second = .ok g' ∧ call2 name g g' = f := by
  simp [ofExpr, bind_eq_ok_iff, lookUp_eq_ok_iff, pure, Except.pure]

end Multifunction

/-! ### Meanings of token sequences -/

/-- The tokens have a tree and the tree has a function. -/
def Compiles (ts : List Token) (f : Multifunction) : Prop :=
  ∃ e, parse ts = .ok e ∧ Multifunction.ofExpr e = .ok f

namespace Compiles

variable {ts us : List Token} {f g : Multifunction} {opening closing opening' closing' : Token}

theorem paren (h : Compiles ts f) (hopen : opening.kind = .leftParen)
    (hclose : closing.kind = .rightParen) : Compiles (opening :: ts ++ [closing]) f := by
  obtain ⟨e, he, hf⟩ := h
  obtain ⟨hgram, hcanon, rfl⟩ := parse_eq_ok_iff.1 he
  exact ⟨.paren opening e closing,
    parse_eq_ok_iff.2 ⟨⟨hopen, hclose, hgram⟩, hcanon, rfl⟩, hf⟩

/-- A leading minus takes all that follows it. -/
theorem negate {op : Token} (h : Compiles ts f) (hop : op.kind = .unary)
    (hname : op.literal = Named.name Operator.sub) : Compiles (op :: ts) (.negate f) := by
  obtain ⟨e, he, hf⟩ := h
  obtain ⟨hgram, hcanon, rfl⟩ := parse_eq_ok_iff.1 he
  exact ⟨.unary op e, parse_eq_ok_iff.2 ⟨⟨hop, hgram⟩, hcanon, rfl⟩,
    Multifunction.ofExpr_unary_eq_ok_iff.2 ⟨hname, f, hf, rfl⟩⟩

theorem call {t : Token} {name : Function} (h : Compiles ts f) (ht : t.kind = .function1)
    (hname : t.literal = Named.name name) (hopen : opening.kind = .leftParen)
    (hclose : closing.kind = .rightParen) :
    Compiles (t :: opening :: ts ++ [closing]) (.call name f) := by
  obtain ⟨e, he, hf⟩ := h
  obtain ⟨hgram, hcanon, rfl⟩ := parse_eq_ok_iff.1 he
  exact ⟨.call t opening e closing,
    parse_eq_ok_iff.2 ⟨⟨ht, hopen, hclose, hgram⟩, hcanon, rfl⟩,
    Multifunction.ofExpr_call_eq_ok_iff.2 ⟨name, hname.symm, f, hf, rfl⟩⟩

theorem call2 {t separator : Token} {name : Function2} (h : Compiles ts f) (h' : Compiles us g)
    (ht : t.kind = .function2) (hname : t.literal = Named.name name)
    (hopen : opening.kind = .leftParen) (hsep : separator.kind = .separator)
    (hclose : closing.kind = .rightParen) :
    Compiles (t :: opening :: ts ++ separator :: us ++ [closing]) (.call2 name f g) := by
  obtain ⟨e, he, hf⟩ := h
  obtain ⟨hgram, hcanon, rfl⟩ := parse_eq_ok_iff.1 he
  obtain ⟨e', he', hg⟩ := h'
  obtain ⟨hgram', hcanon', rfl⟩ := parse_eq_ok_iff.1 he'
  exact ⟨.call2 t opening e separator e' closing,
    parse_eq_ok_iff.2 ⟨⟨ht, hopen, hsep, hclose, hgram, hgram'⟩, ⟨hcanon, hcanon'⟩, rfl⟩,
    Multifunction.ofExpr_call2_eq_ok_iff.2 ⟨name, hname.symm, f, hf, g, hg, rfl⟩⟩

/-- Brackets hide the operators of both operands, so the one between them is outermost. -/
theorem binary {op : Token} {name : Operator} (h : Compiles ts f) (h' : Compiles us g)
    (hop : op.kind = .binary) (hname : op.literal = Named.name name)
    (hopen : opening.kind = .leftParen) (hclose : closing.kind = .rightParen)
    (hopen' : opening'.kind = .leftParen) (hclose' : closing'.kind = .rightParen) :
    Compiles ((opening :: ts ++ [closing]) ++ op :: (opening' :: us ++ [closing']))
      (.binary name f g) := by
  obtain ⟨e, he, hf⟩ := h
  obtain ⟨hgram, hcanon, rfl⟩ := parse_eq_ok_iff.1 he
  obtain ⟨e', he', hg⟩ := h'
  obtain ⟨hgram', hcanon', rfl⟩ := parse_eq_ok_iff.1 he'
  have hoperator : op.IsOperator := ⟨hop, by rw [hname]; cases name <;> decide⟩
  refine ⟨.binary (.paren opening e closing) op (.paren opening' e' closing'),
    parse_eq_ok_iff.2 ⟨⟨hoperator, ⟨hopen, hclose, hgram⟩, ⟨hopen', hclose', hgram'⟩⟩,
      ⟨id, ?_, ?_, hcanon, hcanon'⟩, rfl⟩,
    Multifunction.ofExpr_binary_eq_ok_iff.2 ⟨name, hname.symm, f, hf, g, hg, rfl⟩⟩
  · simp [Expr.outerOperators]
  · simp [Expr.outerOperators]

end Compiles

/-! ### What a meaning does not depend on -/

section Relabel

variable {φ : Token → Token} (hφ : Token.Keeps φ)
include hφ

theorem Multifunction.ofToken_relabel {t : Token} (ht : t.isValue) :
    ofToken (φ t) = ofToken t := by
  rw [ofToken, ofToken, hφ.kind]
  split
  · rfl
  · rfl
  · rw [hφ.literal t (by simp [Token.IsNameless, *])]
  · simp [Token.isValue, Token.Kind.isValue] at ht

theorem Multifunction.ofExpr_relabel {e : Expr} (h : e.Grammatical) :
    ofExpr (e.relabel φ) = ofExpr e := by
  induction e with
  | value t => exact ofToken_relabel hφ h
  | call t opening argument closing ih =>
    obtain ⟨ht, -, -, hargument⟩ := h
    rw [Expr.relabel, ofExpr, ofExpr, hφ.literal t (by simp [Token.IsNameless, ht]),
      ih hargument]
  | call2 t opening first separator second closing ihFirst ihSecond =>
    obtain ⟨ht, -, -, -, hfirst, hsecond⟩ := h
    rw [Expr.relabel, ofExpr, ofExpr, hφ.literal t (by simp [Token.IsNameless, ht]),
      ihFirst hfirst, ihSecond hsecond]
  | unary op operand ih =>
    obtain ⟨hop, hoperand⟩ := h
    rw [Expr.relabel, ofExpr, ofExpr, hφ.literal op (by simp [Token.IsNameless, hop]),
      ih hoperand]
  | paren opening inner closing ih => exact ih h.2.2
  | binary left op right ihLeft ihRight =>
    obtain ⟨hop, hleft, hright⟩ := h
    rw [Expr.relabel, ofExpr, ofExpr, hφ.literal op (by simp [Token.IsNameless, hop.1]),
      ihLeft hleft, ihRight hright]

/-- **A meaning goes by kinds and names alone.** -/
theorem compiles_map_iff {ts : List Token} {f : Multifunction} :
    Compiles (ts.map φ) f ↔ Compiles ts f := by
  refine ⟨?_, ?_⟩
  · intro h
    obtain ⟨_, hmap, hf⟩ := h
    obtain ⟨e, he, rfl⟩ := (parse_map_eq_ok_iff hφ).1 hmap
    obtain ⟨hgram, -, -⟩ := parse_eq_ok_iff.1 he
    exact ⟨e, he, by rwa [Multifunction.ofExpr_relabel hφ hgram] at hf⟩
  · intro h
    obtain ⟨e, he, hf⟩ := h
    obtain ⟨hgram, -, -⟩ := parse_eq_ok_iff.1 he
    exact ⟨e.relabel φ, (parse_map_eq_ok_iff hφ).2 ⟨e, he, rfl⟩,
      by rwa [Multifunction.ofExpr_relabel hφ hgram]⟩

end Relabel

end Branchwise
