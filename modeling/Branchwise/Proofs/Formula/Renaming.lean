/-
The variable may have any name.

Under another letter the tokens of a formula stay what they are, up to the letter.  The grammar does
not ask which letter a variable is and neither does a function, so what was read decides: the
formulas have one function or fail at one stage and in one place.  Errors may show the letter.
Where they point does not depend on it, all letters being one byte wide.
-/
import Branchwise.Proofs.Formula.Alike
import Branchwise.Proofs.Token.Renaming

namespace Branchwise

open String (utf8Len utf8Len_cons utf8Len_nil utf8Len_toList)

/-! ### Widths -/

section Widths

variable {f : Char → Char} (hf : Renames f)
include hf

theorem utf8ByteSize_map (s : String) : (s.map f).utf8ByteSize = s.utf8ByteSize := by
  have hlen (cs : List Char) : utf8Len (cs.map f) = utf8Len cs := by
    induction cs with
    | nil => rfl
    | cons c cs ih => rw [List.map_cons, utf8Len_cons, utf8Len_cons, ih, hf.utf8Size]
  rw [← utf8Len_toList, ← utf8Len_toList, String.toList_map, hlen]

theorem Token.span_rename (t : Token) : (t.rename f).span = t.span := by
  unfold Token.span Token.rename
  dsimp only
  split
  · rw [utf8ByteSize_map hf]
  · rfl

theorem Span.ofChar_rename (c : Char) (offset : Nat) :
    Span.ofChar (f c) offset = Span.ofChar c offset := by
  rw [Span.ofChar, Span.ofChar, hf.utf8Size]

end Widths

/-! ### Trees of renamed tokens -/

/-- Relabelled tokens have the relabelled tree, or no tree from the same place on. -/
theorem parse_map_alike {φ : Token → Token} (hφ : Token.Keeps φ) (ts : List Token) :
    EndAlike (fun c c' => c.relabel φ = c') (fun e e' => e.Grammatical ∧ e.relabel φ = e')
      (parse ts) (parse (ts.map φ)) := by
  cases hparse : parse ts with
  | ok e =>
    rw [(parse_map_eq_ok_iff hφ).2 ⟨e, hparse, rfl⟩]
    exact .ok ⟨(parse_sound hparse).1, rfl⟩
  | error c =>
    rw [(parse_map_eq_error_iff hφ).2 ⟨c, hparse, rfl⟩]
    exact .error rfl

namespace FormulaError

/-- Errors of one stage, about the same tokens with the variable renamed. -/
abbrev Renamed (f : Char → Char) : FormulaError → FormulaError → Prop :=
  FormulaError.Alike (fun cause cause' => cause.rename f = cause') fun t u => t.rename f = u

/-- **A renamed error points where the error points.** -/
theorem labels_of_renamed {f : Char → Char} (hf : Renames f) {e e' : FormulaError}
    (h : Renamed f e e') (formula : String) : e'.labels (formula.map f) = e.labels formula := by
  cases h with
  | @lex cause cause' hcause =>
    subst hcause
    cases cause with
    | unknownCharacter c offset => simp only [LexError.rename, labels, Span.ofChar_rename hf]
    | secondVariable first firstOffset second offset =>
      simp only [LexError.rename, labels, Span.ofChar_rename hf]
    | unreadableNumeral literal offset => rfl
  | @incomplete cause cause' hconsumed hunread =>
    obtain ⟨consumed, unread⟩ := cause
    obtain ⟨consumed', unread'⟩ := cause'
    cases hunread with
    | none => simp [labels, utf8ByteSize_map hf]
    | some ht =>
      subst ht
      simp [labels, Token.span_rename hf]
  | unsupported cause => rfl

end FormulaError

namespace Formula

/-- **Renaming letters changes no function**, and an error is the renamed error. -/
theorem compile_rename {f : Char → Char} (hf : Renames f) (formula : String) :
    EndAlike (FormulaError.Renamed f) (· = ·) (compile formula) (compile (formula.map f)) := by
  have hkeeps := Token.keeps_rename f
  have htrees : EndAlike (FormulaError.Renamed f)
      (fun e e' => e.Grammatical ∧ e.relabel (Token.rename f) = e')
      (parse formula) (parse (formula.map f)) := by
    have hread : EndAlike (FormulaError.Renamed f) (List.Forall₂ fun t u => t.rename f = u)
        ((tokenize formula).mapError .lex) ((tokenize (formula.map f)).mapError .lex) :=
      (tokenize_rename hf formula).mapError fun _ _ h => .lex h
    refine hread.bind fun ts us hts => ?_
    obtain rfl : ts.map (Token.rename f) = us := by
      rwa [← List.forall₂_eq_eq_eq, List.forall₂_map_left_iff]
    refine (parse_map_alike hkeeps ts).mapError fun c c' hc => ?_
    subst hc
    refine .incomplete rfl ?_
    rw [IncompleteExpression.relabel]
    cases c.unread with
    | none => exact .none
    | some t => exact .some rfl
  refine htrees.bind fun e e' htree => ?_
  obtain ⟨hgram, rfl⟩ := htree
  rw [Multifunction.ofExpr_relabel hkeeps hgram]
  cases Multifunction.ofExpr e with
  | ok g => exact .ok rfl
  | error cause => exact .error (.unsupported cause)

/-- Where there is no `v`, replacing `u` by `v` exchanges the two. -/
theorem map_replace_eq_map_swap {u v : Char} {formula : String} (hv : v ∉ formula.toList) :
    (formula.map fun c => if c = u then v else c) = formula.map (Equiv.swap u v) := by
  rw [← String.toList_inj, String.toList_map, String.toList_map]
  refine List.map_congr_left fun c hc => ?_
  have hne : c ≠ v := ne_of_mem_of_not_mem hc hv
  rw [Equiv.swap_apply_def, if_neg hne]

/-- **The name of the variable does not matter.**  A letter that no keyword contains may stand for
another one: the tokens are the same but for the letter, in the same places, and so is the function;
or the formulas fail with errors of the same kind, behind equally many tokens, that point at the
same places. -/
theorem compile_replaced {u v : Char} (hu : IsFreeLetter u) (hv : IsFreeLetter v)
    {formula : String} (hfresh : v ∉ formula.toList) :
    let replaced := formula.map fun c => if c = u then v else c
    Token.steps replaced = (Token.steps formula).map (Token.Step.rename (Equiv.swap u v)) ∧
      EndAlike (fun e e' => FormulaError.Renamed (Equiv.swap u v) e e' ∧
          e'.labels replaced = e.labels formula)
        (· = ·) (compile formula) (compile replaced) := by
  intro replaced
  have hswap : replaced = formula.map (Equiv.swap u v) := map_replace_eq_map_swap hfresh
  have hf := renames_swap hu hv
  rw [hswap]
  refine ⟨Token.steps_rename hf formula, ?_⟩
  refine (compile_rename hf formula).mono_error fun e e' h => ?_
  exact ⟨h, FormulaError.labels_of_renamed hf h formula⟩

/-- A formula with a second letter, which stays where the first one is replaced. -/
theorem compile_replaced_second :
    let formula := "s in(2Z) x"
    let replaced := "s in(2w) x"
    IsFreeLetter 'Z' ∧ IsFreeLetter 'w' ∧ 'w' ∉ formula.toList ∧
      (formula.map fun c => if c = 'Z' then 'w' else c) = replaced ∧
      Token.steps replaced = (Token.steps formula).map (Token.Step.rename (Equiv.swap 'Z' 'w')) ∧
      EndAlike (fun e e' => FormulaError.Renamed (Equiv.swap 'Z' 'w') e e' ∧
          e'.labels replaced = e.labels formula)
        (· = ·) (compile formula) (compile replaced) := by
  intro formula replaced
  have hu : IsFreeLetter 'Z' := by decide
  have hv : IsFreeLetter 'w' := by decide
  have hfresh : 'w' ∉ formula.toList := by decide
  have hreplaced : (formula.map fun c => if c = 'Z' then 'w' else c) = replaced := by
    rw [← String.toList_inj, String.toList_map]
    decide
  obtain ⟨hsteps, hends⟩ := compile_replaced hu hv hfresh
  rw [hreplaced] at hsteps hends
  exact ⟨hu, hv, hfresh, hreplaced, hsteps, hends⟩

/-- A letter that keywords contain may make one together with its neighbour. -/
example :
    compile "iz" = .ok (.binary .mul (.constant ComplexFloat.i) .var) ∧
      (compile "im").toOption = none := by
  decide +kernel

end Formula

end Branchwise
