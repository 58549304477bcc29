/-
Reading is blind to blanks.

Two texts with the same characters besides blanks are read side by side.  Reading goes by
characters, so from glyph to glyph both runs see the same lexeme, know the same variable and end at
the same place; only where a token starts, and the blanks inside a number, may differ.  The implied
products follow the kinds of the tokens and fall at the same places.
-/
import Branchwise.Proofs.Token.Characters

namespace Branchwise

open Text (Glyph strip)

namespace Token

/-- Tokens of one kind, spelled the same but for blanks. -/
structure Alike (t u : Token) : Prop where
  kind : t.kind = u.kind
  literal : strip t.literal.toList = strip u.literal.toList

theorem strip_bare (t : Token) : strip t.bare.literal.toList = strip t.literal.toList := by
  unfold bare
  split
  · simp [strip]
  · rfl

theorem alike_of_bare_eq {t u : Token} (h : t.bare = u.bare) : t.Alike u :=
  ⟨kind_eq_of_bare_eq h, by rw [← strip_bare t, h, strip_bare]⟩

/-- Steps that give the same bare token, or errors about the same characters. -/
structure Step.Alike (step step' : Step) : Prop where
  result : EndAlike LexError.Alike (fun t u => t.bare = u.bare) step.result step'.result
  variableLetter : step.variableLetter = step'.variableLetter

/-- Both runs have read the same kinds and know the same letter at every glyph. -/
theorem readFrom_alike {known known' : Option Variable} {previous : Option Kind}
    {xs ys : List Glyph} (hknown : known.map (·.letter) = known'.map (·.letter))
    (hchars : xs.map Glyph.char = ys.map Glyph.char) (hxs : ∀ x ∈ xs, x.Clean)
    (hys : ∀ y ∈ ys, y.Clean) :
    List.Forall₂ Step.Alike (readFrom known previous xs) (readFrom known' previous ys) := by
  fun_induction readFrom known previous xs generalizing known' ys with
  | case1 known previous =>
    obtain rfl := List.map_eq_nil_iff.1 hchars.symm
    rw [readFrom]
    exact .nil
  | case2 known previous g rest lexeme e =>
    rename_i he
    cases ys with
    | nil => simp at hchars
    | cons g' ys =>
      have halike : EndAlike LexError.Alike _ (ofLexeme known previous g rest lexeme)
          (ofLexeme known' previous g' ys lexeme) := ofLexeme_alike hknown hchars hxs hys lexeme
      obtain ⟨e', he', hee'⟩ := halike.exists_eq_error he
      rw [readFrom, ← Lexeme.scan_congr hchars]
      simp only [lexeme] at he'
      rw [he']
      exact .cons ⟨.error hee', hknown⟩ .nil
  | case3 known previous g rest lexeme t after ht =>
    rename_i ih
    cases ys with
    | nil => simp at hchars
    | cons g' ys =>
      have halike : EndAlike LexError.Alike _ (ofLexeme known previous g rest lexeme)
          (ofLexeme known' previous g' ys lexeme) := ofLexeme_alike hknown hchars hxs hys lexeme
      obtain ⟨⟨t', after'⟩, ht', hbare, hafter⟩ := halike.exists_eq_ok ht
      have hdrop := congrArg (List.drop (lexeme.width - 1)) (List.cons.inj hchars).2
      rw [← List.map_drop, ← List.map_drop] at hdrop
      have hrest := ih hafter hdrop
        (fun x hx => hxs x (List.mem_cons_of_mem g (List.mem_of_mem_drop hx)))
        (fun y hy => hys y (List.mem_cons_of_mem g' (List.mem_of_mem_drop hy)))
      have hkind : t.kind = t'.kind := kind_eq_of_bare_eq hbare
      rw [hkind] at hrest ⊢
      rw [readFrom, ← Lexeme.scan_congr hchars]
      simp only [lexeme] at ht'
      rw [ht']
      exact .cons ⟨.ok hbare, hafter⟩ hrest

theorem withProducts_alike {steps steps' : List Step} (h : List.Forall₂ Step.Alike steps steps')
    (previous : Option Kind) :
    List.Forall₂ Step.Alike (withProducts previous steps) (withProducts previous steps') := by
  induction h generalizing previous with
  | nil => exact .nil
  | @cons step step' rest rest' hstep hrest ih =>
    unfold withProducts
    have hresult := hstep.result
    cases hstep' : step.result with
    | error e =>
      obtain ⟨e', he', -⟩ := hresult.exists_eq_error hstep'
      rw [he']
      exact .cons hstep (ih previous)
    | ok t =>
      obtain ⟨t', ht', hbare⟩ := hresult.exists_eq_ok hstep'
      have hkind := kind_eq_of_bare_eq hbare
      rw [ht']
      dsimp only
      rw [isValue, isValue, hkind]
      split
      · exact .cons ⟨.ok rfl, hstep.variableLetter⟩ (.cons hstep (ih (some t'.kind)))
      · exact .cons hstep (ih (some t'.kind))

/-- **Texts with the same characters besides blanks are read the same, step by step.** -/
theorem steps_alike {a b : String} (h : strip a.toList = strip b.toList) :
    List.Forall₂ Step.Alike (steps a) (steps b) := by
  have hchars : (Glyph.ofText a.toList).map Glyph.char = (Glyph.ofText b.toList).map Glyph.char := by
    rw [Glyph.map_char_ofText, Glyph.map_char_ofText, h]
  have hread : List.Forall₂ Step.Alike (readFrom none none (Glyph.ofText a.toList))
      (readFrom none none (Glyph.ofText b.toList)) :=
    readFrom_alike rfl hchars (fun _ => Glyph.clean_of_mem_ofText)
      fun _ => Glyph.clean_of_mem_ofText
  exact withProducts_alike hread none

end Token

theorem tokenize_alike {a b : String} (h : strip a.toList = strip b.toList) :
    EndAlike LexError.Alike (List.Forall₂ fun t u => t.bare = u.bare) (tokenize a) (tokenize b) :=
  EndAlike.mapM (Token.steps_alike h) fun _ _ hstep => hstep.result

end Branchwise
