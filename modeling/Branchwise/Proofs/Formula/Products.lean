/-
Implied products are a way of writing.

A formula with its implied products written out is read as the same words, and nothing has to be
inserted any more.  From there on the two formulas are one: parsing goes by the words, so they have
the same function, or make no sense from the same word on.
-/
import Mathlib
import Branchwise.Proofs.Formula.Alike
import Branchwise.Proofs.Formula.Fault
import Branchwise.Proofs.Token.Products

namespace Branchwise.Formula

open Text (Glyph)

/-- The formula with a star wherever one of its tokens is a product that is not written. -/
def writtenOut (formula : String) (ts : List Token) : String :=
  String.ofList (Text.writeStars (Token.impliedOffsets ts) 0 formula.toList)

variable {formula : String} {ts : List Token}

/-- **The written form is cut into the tokens of the formula**, but for their places. -/
theorem exists_cuts_writtenOut (h : tokenize formula = .ok ts) :
    ∃ us, Token.Cuts none (Glyph.ofText (writtenOut formula ts).toList) us [] ∧
      ts.map Token.unplaced = us.map Token.unplaced := by
  obtain ⟨read, hcuts, -, rfl⟩ := tokenize_eq_ok_iff.1 h
  have hrise := Glyph.pairwise_offset_ofTextFrom 0 [] formula.toList
  have hstars := hcuts.withStars rfl hrise fun _ _ => Iff.rfl
  have hplaces : ∀ o ∈ Token.impliedOffsets (Token.insertProducts none read), 0 ≤ o →
      ∃ g ∈ Glyph.ofTextFrom 0 [] formula.toList, g.offset = o := by
    intro o ho _
    obtain ⟨t, ht, rfl⟩ := Token.exists_of_mem_impliedOffsets (hcuts.pairwise_offset hrise) ho
    exact List.mem_map.1 (hcuts.offsets_sublist.subset (List.mem_map_of_mem ht))
  have hglyphs := Glyph.unplaced_ofTextFrom_writeStars hplaces 0
  obtain ⟨us, rest, hus, hrest, hsame⟩ := hstars.unplaced_congr hglyphs.symm
  obtain rfl : rest = [] := List.map_eq_nil_iff.1 hrest.symm
  refine ⟨us, ?_, hsame⟩
  rw [writtenOut, String.toList_ofList]
  exact hus

/-- Tokens that are those of a formula but for their places need no product inserted. -/
theorem insertProducts_of_unplaced_eq {us : List Token} (h : tokenize formula = .ok ts)
    (hsame : ts.map Token.unplaced = us.map Token.unplaced) :
    Token.insertProducts none us = us := by
  obtain ⟨read, -, -, rfl⟩ := tokenize_eq_ok_iff.1 h
  have hmap (vs : List Token) : (Token.insertProducts none vs).map Token.unplaced =
      Token.insertProducts none (vs.map Token.unplaced) :=
    Token.map_insertProducts Token.keeps_unplaced.kind (fun _ => rfl) none vs
  have hlength := congrArg List.length (hmap us)
  rw [← hsame, ← hmap, Token.insertProducts_insertProducts, hsame, List.length_map,
    List.length_map] at hlength
  exact ((Token.sublist_insertProducts none us).eq_of_length hlength.symm).symm

theorem oneVariable_of_tokenize (h : tokenize formula = .ok ts) : Token.OneVariable ts := by
  obtain ⟨read, -, hone, rfl⟩ := tokenize_eq_ok_iff.1 h
  refine hone.of_subset fun t ht hletter => Token.mem_of_mem_insertProducts ht ?_
  rw [hletter]
  exact nofun

/-- Formulas whose tokens differ in their places come to the same function, or neither has one and
both make sense up to the same token. -/
theorem compile_cases_of_unplaced_eq {other : String} {us : List Token}
    (h : tokenize formula = .ok ts) (hus : tokenize other = .ok us)
    (hsame : ts.map Token.unplaced = us.map Token.unplaced) :
    (∃ f, compile formula = .ok f ∧ compile other = .ok f) ∨
      ∃ cause cause', compile formula = .error (.incomplete cause) ∧
        compile other = .error (.incomplete cause') ∧ cause.consumed = cause'.consumed := by
  have hread : EndAlike (fun _ _ => False) (fun ts us => ts.map Token.unplaced =
      us.map Token.unplaced) (tokenize formula) (tokenize other) := by
    rw [h, hus]
    exact .ok hsame
  have halike := compile_alike Token.keeps_unplaced (fun _ _ => id) hread
  cases hcompile : compile formula with
  | ok f =>
    obtain ⟨f', hf', rfl⟩ := halike.exists_eq_ok hcompile
    exact .inl ⟨f, rfl, hf'⟩
  | error e =>
    obtain ⟨e', he', hee'⟩ := halike.exists_eq_error hcompile
    cases hee' with
    | lex hcause => exact hcause.elim
    | incomplete hconsumed _ => exact .inr ⟨_, _, rfl, he', hconsumed⟩
    | unsupported cause => cases ofText_of_compile hcompile

/-- **Writing the implied products out changes nothing.**  The written form is read as tokens of
the same kinds and spellings, by reading alone: no product is implied among them.  It has the same
function as the formula, or neither has one and both make sense up to the same token. -/
theorem writtenOut_alike (h : tokenize formula = .ok ts) :
    (∃ us, tokenize (writtenOut formula ts) = .ok us ∧
        us.map (fun t => (t.kind, t.literal)) = ts.map (fun t => (t.kind, t.literal)) ∧
        (Token.readFrom none none (Glyph.ofText (writtenOut formula ts).toList)).mapM (·.result) =
          .ok us ∧
        Token.impliedOffsets us = []) ∧
      ((∃ f, compile formula = .ok f ∧ compile (writtenOut formula ts) = .ok f) ∨
        ∃ cause cause', compile formula = .error (.incomplete cause) ∧
          compile (writtenOut formula ts) = .error (.incomplete cause') ∧
          cause.consumed = cause'.consumed) := by
  obtain ⟨us, hcuts, hsame⟩ := exists_cuts_writtenOut h
  have hone : Token.OneVariable us :=
    Token.oneVariable_of_unplaced_eq hsame (oneVariable_of_tokenize h)
  have hus : tokenize (writtenOut formula ts) = .ok us :=
    tokenize_eq_ok_iff.2 ⟨us, hcuts, hone, insertProducts_of_unplaced_eq h hsame⟩
  refine ⟨⟨us, hus, (Token.map_kind_literal_of_unplaced_eq hsame).symm, ?_, ?_⟩, ?_⟩
  · exact Token.mapM_readFrom_eq_ok_iff.2 ⟨hcuts, hone, nofun⟩
  · exact Token.impliedOffsets_eq_nil
      (hcuts.pairwise_offset (Glyph.pairwise_offset_ofTextFrom 0 [] _))
  · exact compile_cases_of_unplaced_eq h hus hsame

/-- Each star stands right before its value, behind the blank, and the written minus is no star. -/
theorem writtenOut_alike_constants :
    let formula := "z pi-i z"
    let ts : List Token := [⟨.letter, "z", 0⟩, ⟨.binary, "*", 2⟩, ⟨.constant, "pi", 2⟩,
      ⟨.binary, "-", 4⟩, ⟨.constant, "i", 5⟩, ⟨.binary, "*", 7⟩, ⟨.letter, "z", 7⟩]
    tokenize formula = .ok ts ∧ writtenOut formula ts = "z *pi-i *z" ∧
      (∃ us, tokenize (writtenOut formula ts) = .ok us ∧
        us.map (fun t => (t.kind, t.literal)) = ts.map (fun t => (t.kind, t.literal)) ∧
        (Token.readFrom none none (Glyph.ofText (writtenOut formula ts).toList)).mapM (·.result) =
          .ok us ∧
        Token.impliedOffsets us = []) ∧
      ((∃ f, compile formula = .ok f ∧ compile (writtenOut formula ts) = .ok f) ∨
        ∃ cause cause', compile formula = .error (.incomplete cause) ∧
          compile (writtenOut formula ts) = .error (.incomplete cause') ∧
          cause.consumed = cause'.consumed) := by
  intro formula ts
  have h : tokenize formula = .ok ts := by cbv
  have hwritten : writtenOut formula ts = "z *pi-i *z" := by cbv
  exact ⟨h, hwritten, writtenOut_alike h⟩

end Branchwise.Formula
