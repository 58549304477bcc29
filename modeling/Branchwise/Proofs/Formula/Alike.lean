/-
Formulas that come to the same.

Two formulas are compared stage by stage.  Tokens that differ only in what parsing does not ask for
have trees of one shape or stop at one place, and such trees have the same function; so it is
enough to compare what is read.  Blanks are the plainest case: they are gone before a token is
read.
-/
import Branchwise.Formula
import Branchwise.Proofs.Expr.Beginning
import Branchwise.Proofs.Multifunction.Compile
import Branchwise.Proofs.Token.Blanks

namespace Branchwise

open Text (strip)

/-- Errors of one stage: of reading, and related; of parsing, behind equally many tokens; or of
looking up the same name. -/
inductive FormulaError.Alike (E : LexError → LexError → Prop) (R : Token → Token → Prop) :
    FormulaError → FormulaError → Prop
  | lex {cause cause' : LexError} (h : E cause cause') : Alike E R (.lex cause) (.lex cause')
  | incomplete {cause cause' : IncompleteExpression} (hconsumed : cause.consumed = cause'.consumed)
      (hunread : Option.Rel R cause.unread cause'.unread) :
      Alike E R (.incomplete cause) (.incomplete cause')
  | unsupported (cause : UnsupportedName) : Alike E R (.unsupported cause) (.unsupported cause)

namespace Formula

variable {a b : String} {f : Token → Token} {E : LexError → LexError → Prop}
  {R : Token → Token → Prop}

theorem alike_of_relabel_eq {c c' : IncompleteExpression} (hR : ∀ t u, f t = f u → R t u)
    (h : c.relabel f = c'.relabel f) : FormulaError.Alike E R (.incomplete c) (.incomplete c') := by
  obtain ⟨consumed, unread⟩ := c
  obtain ⟨consumed', unread'⟩ := c'
  obtain ⟨hconsumed, hunread⟩ := IncompleteExpression.mk.inj h
  refine .incomplete hconsumed ?_
  cases unread with
  | none =>
    cases unread' with
    | none => exact .none
    | some u => cases hunread
  | some t =>
    cases unread' with
    | none => cases hunread
    | some u => exact .some (hR t u (Option.some.inj hunread))

/-- The trees have the same shape over the same labels. -/
theorem parse_alike (hf : Token.Keeps f) (hR : ∀ t u, f t = f u → R t u)
    (h : EndAlike E (fun ts us => ts.map f = us.map f) (tokenize a) (tokenize b)) :
    EndAlike (FormulaError.Alike E R)
      (fun e e' => e.Grammatical ∧ e'.Grammatical ∧ e.relabel f = e'.relabel f)
      (parse a) (parse b) := by
  refine (h.mapError fun _ _ he => FormulaError.Alike.lex he).bind fun ts us hlabels => ?_
  exact (Branchwise.parse_alike hf hlabels).mapError fun _ _ hc => alike_of_relabel_eq hR hc

/-- **Formulas that are read alike come to the same function or to errors of the same stage.** -/
theorem compile_alike (hf : Token.Keeps f) (hR : ∀ t u, f t = f u → R t u)
    (h : EndAlike E (fun ts us => ts.map f = us.map f) (tokenize a) (tokenize b)) :
    EndAlike (FormulaError.Alike E R) (· = ·) (compile a) (compile b) := by
  refine (parse_alike hf hR h).bind fun e e' htrees => ?_
  obtain ⟨hgram, hgram', hlabels⟩ := htrees
  have hsame : Multifunction.ofExpr e = Multifunction.ofExpr e' := by
    rw [← Multifunction.ofExpr_relabel hf hgram, hlabels, Multifunction.ofExpr_relabel hf hgram']
  rw [hsame]
  cases Multifunction.ofExpr e' with
  | ok g => exact .ok rfl
  | error cause => exact .error (.unsupported cause)

/-! ### Blanks -/

/-- **Blanks do not count: texts that are the same without them are read as the same tokens, and
come to the same function, or fail alike.** -/
theorem alike_of_strip_eq (h : strip a.toList = strip b.toList) :
    EndAlike LexError.Alike (List.Forall₂ Token.Alike) (tokenize a) (tokenize b) ∧
      EndAlike (FormulaError.Alike LexError.Alike Token.Alike) (· = ·) (compile a) (compile b) := by
  have hread := tokenize_alike h
  refine ⟨hread.mono fun ts us hts => hts.imp fun _ _ => Token.alike_of_bare_eq, ?_⟩
  refine compile_alike Token.keeps_bare (fun _ _ => Token.alike_of_bare_eq) (hread.mono ?_)
  intro ts us hts
  rwa [← List.forall₂_eq_eq_eq, List.forall₂_map_left_iff, List.forall₂_map_right_iff]

/-- A blank inside a name, blanks of three bytes inside a number and before an implied product. -/
theorem alike_of_strip_eq_root :
    let a := "s qrt(1\u3000000\u3000z)"
    let b := "sqrt(1000z)"
    strip a.toList = strip b.toList ∧
      EndAlike LexError.Alike (List.Forall₂ Token.Alike) (tokenize a) (tokenize b) ∧
      EndAlike (FormulaError.Alike LexError.Alike Token.Alike) (· = ·) (compile a) (compile b) := by
  intro a b
  have h : strip a.toList = strip b.toList := by decide
  exact ⟨h, alike_of_strip_eq h⟩

end Formula

end Branchwise
