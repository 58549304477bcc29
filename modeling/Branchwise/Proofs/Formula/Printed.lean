/-
What a printed tree says of its formula.

The text of a tree leaves out all that a reader does not need: places, brackets of calls,
separators.  It still says what the formula means.  The tokens of a formula are written as pieces
and its tree is grammatical, so trees that are printed alike are the same tree with other places,
and trees like that have one function.  Numbers with blanks inside are the exception, for a printed
tree has blanks of its own.
-/
import Branchwise.Proofs.Expr.Printed
import Branchwise.Proofs.Formula.Fault

namespace Branchwise

namespace Formula

variable {formula : String} {e : Expr}

/-- The tree of a formula is grammatical, and what the reader knows of tokens holds of its own. -/
theorem tokens_of_parse (h : parse formula = .ok e) :
    e.Grammatical ∧ ∀ t ∈ e.tokens, t.IsWritten ∧ t.IsSpelled := by
  obtain ⟨ts, hread, hparse⟩ := bind_eq_ok_iff.1 h
  have hread := mapError_eq_ok_iff.1 hread
  obtain ⟨hgram, rfl⟩ := parse_sound (mapError_eq_ok_iff.1 hparse)
  exact ⟨hgram, fun t ht => ⟨isWritten_of_tokenize hread t ht, isSpelled_of_tokenize hread t ht⟩⟩

/-- A formula that can be parsed has the function of its tree. -/
theorem exists_compile_of_parse (h : parse formula = .ok e) :
    ∃ f, Multifunction.ofExpr e = .ok f ∧ compile formula = .ok f := by
  obtain ⟨hgram, htokens⟩ := tokens_of_parse h
  obtain ⟨f, hf⟩ := Multifunction.exists_ofExpr hgram fun t ht => (htokens t ht).2
  exact ⟨f, hf, bind_eq_ok_iff.2 ⟨e, h, mapError_eq_ok_iff.2 hf⟩⟩

/-- **A printed tree is unambiguous.**  If the trees of two formulas are printed alike and no number
in them has blanks inside, they are the same tree but for the places of the tokens, and the formulas
have the same function. -/
theorem same_of_toText_eq {a b : String} {e e' : Expr} (ha : parse a = .ok e)
    (hb : parse b = .ok e') (hunbroken : ∀ t ∈ e.tokens, t.IsUnbroken)
    (hunbroken' : ∀ t ∈ e'.tokens, t.IsUnbroken) (h : e.toText = e'.toText) :
    e.relabel Token.unplaced = e'.relabel Token.unplaced ∧
      ∃ f, compile a = .ok f ∧ compile b = .ok f := by
  obtain ⟨hgram, htokens⟩ := tokens_of_parse ha
  obtain ⟨hgram', htokens'⟩ := tokens_of_parse hb
  have hworded := Expr.isWorded_outline hgram
    fun t ht => ⟨(htokens t ht).1, hunbroken t ht⟩
  have hworded' := Expr.isWorded_outline hgram'
    fun t ht => ⟨(htokens' t ht).1, hunbroken' t ht⟩
  have houtline : e.outline = e'.outline := by
    refine Outline.text_injective hworded hworded' ?_
    rw [← Expr.toList_toText, h, Expr.toList_toText]
  have htree := Expr.relabel_eq_of_outline_eq hgram hgram' (fun t ht => (htokens t ht).1)
    (fun t ht => (htokens' t ht).1) houtline
  obtain ⟨f, hf, hcompile⟩ := exists_compile_of_parse ha
  obtain ⟨g, hg, hcompile'⟩ := exists_compile_of_parse hb
  have hsame : Multifunction.ofExpr e = Multifunction.ofExpr e' := by
    rw [← Multifunction.ofExpr_relabel Token.keeps_unplaced hgram, htree,
      Multifunction.ofExpr_relabel Token.keeps_unplaced hgram']
  obtain rfl : f = g := Except.ok.inj (hf.symm.trans (hsame.trans hg))
  exact ⟨htree, f, hcompile, hcompile'⟩

/-- A product that is written, and the same product implied before a name with a blank inside. -/
theorem same_of_toText_eq_product :
    let e : Expr := .unary ⟨.unary, "-", 0⟩
      (.binary (.value ⟨.number (Float.ofScientific 2 false 0), "2", 1⟩) ⟨.binary, "*", 2⟩
        (.value ⟨.constant, "pi", 3⟩))
    let e' : Expr := .unary ⟨.unary, "-", 0⟩
      (.binary (.value ⟨.number (Float.ofScientific 2 false 0), "2", 1⟩) ⟨.binary, "*", 2⟩
        (.value ⟨.constant, "pi", 2⟩))
    parse "-2*pi" = .ok e ∧ parse "-2p i" = .ok e' ∧ (∀ t ∈ e.tokens, t.IsUnbroken) ∧
      (∀ t ∈ e'.tokens, t.IsUnbroken) ∧ e.toText = e'.toText ∧
      e.relabel Token.unplaced = e'.relabel Token.unplaced ∧
      ∃ f, compile "-2*pi" = .ok f ∧ compile "-2p i" = .ok f := by
  intro e e'
  have ha : parse "-2*pi" = .ok e := by decide +kernel
  have hb : parse "-2p i" = .ok e' := by decide +kernel
  have hunbroken : ∀ t ∈ e.tokens, t.IsUnbroken := by
    simp [e, Expr.tokens, Token.IsUnbroken, Text.isBlank, Text.blankRanges]
  have hunbroken' : ∀ t ∈ e'.tokens, t.IsUnbroken := by
    simp [e', Expr.tokens, Token.IsUnbroken, Text.isBlank, Text.blankRanges]
  have htext : e.toText = e'.toText := rfl
  exact ⟨ha, hb, hunbroken, hunbroken', htext,
    same_of_toText_eq ha hb hunbroken hunbroken' htext⟩

/-- With a blank inside a number a negation is printed as a difference. -/
example :
    (parse "-1 0").map (fun e => (e.toText, e.rootName)) = .ok ("(- 1 0)", "unary") ∧
      (parse "1-0").map (fun e => (e.toText, e.rootName)) = .ok ("(- 1 0)", "binary") := by
  decide +kernel

end Formula

end Branchwise
