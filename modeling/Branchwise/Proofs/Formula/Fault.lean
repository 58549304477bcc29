/-
Only the text of a formula can keep it from having a function.

Two of the errors that exist would not be about the text: a name that the parser lets pass and
nothing stands for, and digits that write no number.  Neither comes up.  Tokens that were read are
well spelled, parsing keeps them as they are and checks their kinds, and a grammatical tree over
well spelled tokens has a function whatever its shape.  So the exit code for unsupported formulas
is never used.
-/
import Branchwise.Command.Run
import Branchwise.Proofs.Multifunction.Compile
import Branchwise.Proofs.Token.Spelling

namespace Branchwise

namespace Multifunction

theorem exists_ofToken {t : Token} (ht : t.isValue) (hspelled : t.IsSpelled) :
    ∃ f, ofToken t = .ok f := by
  unfold ofToken
  split
  · exact ⟨_, rfl⟩
  · exact ⟨_, rfl⟩
  · rename_i hkind
    have hname : ∃ c : Constant, Named.name c = t.literal := by
      simpa [Token.IsSpelled, hkind] using hspelled
    obtain ⟨c, hc⟩ := hname
    rw [lookUp_eq_ok_iff.2 hc]
    exact ⟨_, rfl⟩
  · grind [Token.isValue, Token.Kind.isValue]

/-- **Trees over well spelled tokens have functions.** -/
theorem exists_ofExpr {e : Expr} (he : e.Grammatical) (h : ∀ t ∈ e.tokens, t.IsSpelled) :
    ∃ f, ofExpr e = .ok f := by
  induction e with
  | value t => exact exists_ofToken he (h t (List.mem_singleton_self t))
  | call t opening argument closing ih =>
    obtain ⟨hkind, -, -, hargument⟩ := he
    simp only [Expr.tokens, List.cons_append, List.forall_mem_cons, List.forall_mem_append] at h
    obtain ⟨ht, -, htokens, -⟩ := h
    obtain ⟨name, hname⟩ : ∃ f : Function, Named.name f = t.literal := by
      simpa [Token.IsSpelled, hkind] using ht
    obtain ⟨f, hf⟩ := ih hargument htokens
    exact ⟨_, ofExpr_call_eq_ok_iff.2 ⟨name, hname, f, hf, rfl⟩⟩
  | call2 t opening first separator second closing ihFirst ihSecond =>
    obtain ⟨hkind, -, -, -, hfirst, hsecond⟩ := he
    simp only [Expr.tokens, List.cons_append, List.forall_mem_cons, List.forall_mem_append] at h
    obtain ⟨ht, -, ⟨hleft, -, hright⟩, -⟩ := h
    obtain ⟨name, hname⟩ : ∃ f : Function2, Named.name f = t.literal := by
      simpa [Token.IsSpelled, hkind] using ht
    obtain ⟨f, hf⟩ := ihFirst hfirst hleft
    obtain ⟨g, hg⟩ := ihSecond hsecond hright
    exact ⟨_, ofExpr_call2_eq_ok_iff.2 ⟨name, hname, f, hf, g, hg, rfl⟩⟩
  | unary op operand ih =>
    obtain ⟨hkind, hoperand⟩ := he
    obtain ⟨hop, htokens⟩ := List.forall_mem_cons.1 h
    obtain ⟨f, hf⟩ := ih hoperand htokens
    have hname : op.literal = Named.name Operator.sub := by
      simpa [Token.IsSpelled, hkind] using hop
    exact ⟨_, ofExpr_unary_eq_ok_iff.2 ⟨hname, f, hf, rfl⟩⟩
  | paren opening inner closing ih =>
    simp only [Expr.tokens, List.cons_append, List.forall_mem_cons, List.forall_mem_append] at h
    exact ih he.2.2 h.2.1
  | binary left op right ihLeft ihRight =>
    obtain ⟨⟨hkind, -⟩, hgramLeft, hgramRight⟩ := he
    simp only [Expr.tokens, List.forall_mem_cons, List.forall_mem_append] at h
    obtain ⟨hleft, hop, hright⟩ := h
    obtain ⟨name, hname⟩ : ∃ op' : Operator, Named.name op' = op.literal := by
      simpa [Token.IsSpelled, hkind] using hop
    obtain ⟨f, hf⟩ := ihLeft hgramLeft hleft
    obtain ⟨g, hg⟩ := ihRight hgramRight hright
    exact ⟨_, ofExpr_binary_eq_ok_iff.2 ⟨name, hname, f, hf, g, hg, rfl⟩⟩

end Multifunction

/-! ### Errors about the text -/

/-- The errors that a formula has by its text. -/
inductive FormulaError.OfText : FormulaError → Prop
  | unknownCharacter (c : Char) (offset : Nat) : OfText (.lex (.unknownCharacter c offset))
  | secondVariable (first : Char) (firstOffset : Nat) (second : Char) (secondOffset : Nat) :
      OfText (.lex (.secondVariable first firstOffset second secondOffset))
  | incomplete (cause : IncompleteExpression) : OfText (.incomplete cause)

theorem FormulaError.OfText.kind_eq {e : FormulaError} (h : e.OfText) :
    e.kind = some .badFormula := by
  cases h <;> rfl

theorem FormulaError.OfText.exitCode_eq {e : FormulaError} (h : e.OfText) : e.exitCode = 65 := by
  rw [exitCode, h.kind_eq]
  rfl

theorem ofText_lex {e : LexError} (h : ∀ literal offset, e ≠ .unreadableNumeral literal offset) :
    FormulaError.OfText (.lex e) := by
  cases e with
  | unknownCharacter c offset => exact .unknownCharacter c offset
  | secondVariable first firstOffset second secondOffset =>
    exact .secondVariable first firstOffset second secondOffset
  | unreadableNumeral literal offset => exact absurd rfl (h literal offset)

namespace Formula

theorem ofText_of_tokenize {formula : String} {e : LexError} (h : tokenize formula = .error e) :
    FormulaError.OfText (.lex e) :=
  ofText_lex fun literal offset he =>
    tokenize_ne_unreadableNumeral formula literal offset (he ▸ h)

theorem ofText_of_parse {formula : String} {e : FormulaError} (h : parse formula = .error e) :
    e.OfText := by
  rw [parse, bind_eq_error_iff] at h
  rcases h with htokens | ⟨ts, -, hparse⟩
  · obtain ⟨cause, hcause, rfl⟩ := mapError_eq_error_iff.1 htokens
    exact ofText_of_tokenize hcause
  · obtain ⟨cause, -, rfl⟩ := mapError_eq_error_iff.1 hparse
    exact .incomplete cause

/-- The tree of a formula always has a function. -/
theorem ofText_of_compile {formula : String} {e : FormulaError} (h : compile formula = .error e) :
    e.OfText := by
  rw [compile, bind_eq_error_iff] at h
  rcases h with hparse | ⟨tree, htree, hfunction⟩
  · exact ofText_of_parse hparse
  · obtain ⟨ts, htokens, hparse⟩ := bind_eq_ok_iff.1 htree
    obtain ⟨hgram, hspells⟩ := parse_sound (mapError_eq_ok_iff.1 hparse)
    have hspelled := isSpelled_of_tokenize (mapError_eq_ok_iff.1 htokens)
    rw [← hspells] at hspelled
    obtain ⟨f, hf⟩ := Multifunction.exists_ofExpr hgram hspelled
    rw [hf] at hfunction
    cases hfunction

end Formula

/-! ### Exit codes -/

namespace Outcome

theorem tokenize_code_mem (formula : String) : (tokenize formula).code ∈ [0, 65] := by
  unfold tokenize
  dsimp only
  split
  · simp
  · rename_i e he
    simp [failed, (Formula.ofText_of_tokenize he).exitCode_eq]

theorem parse_code_mem (formula : String) : (parse formula).code ∈ [0, 65] := by
  unfold parse
  split
  · simp
  · rename_i e he
    simp [failed, (Formula.ofText_of_parse he).exitCode_eq]

/-- Points that cannot be read are a failure of their own. -/
theorem eval_code_mem (formula : String) (points : List String) (window : Nat) :
    (eval formula points window).code ∈ [0, 1, 65] := by
  unfold eval
  split
  · simp
  · rename_i e he
    rw [Formula.evaluate, bind_eq_error_iff] at he
    rcases he with hcompile | ⟨f, -, hpoints⟩
    · obtain ⟨cause, hcause, rfl⟩ := mapError_eq_error_iff.1 hcompile
      simp [failed, EvaluationError.exitCode, (Formula.ofText_of_compile hcause).exitCode_eq]
    · rw [Multifunction.evaluateTexts, bind_eq_error_iff] at hpoints
      rcases hpoints with hread | ⟨_, -, hvalues⟩
      · obtain ⟨cause, -, rfl⟩ := mapError_eq_error_iff.1 hread
        simp [failed, EvaluationError.exitCode, FailureKind.exitCode]
      · cases hvalues

/-- A batch counts its failures and does not tell their kinds. -/
theorem batch_code_mem (file content : String) (window : Nat) :
    (batch file content window).code ∈ [0, 1] := by
  unfold batch
  dsimp only
  split <;> simp [FailureKind.exitCode]

end Outcome

theorem Command.answer_code_mem (command : Command) (content : Except String String) :
    (command.answer content).code ∈ [0, 1, 65] := by
  have hread : [0, 65] ⊆ [0, 1, 65] := by simp
  have hfile : [0, 1] ⊆ [0, 1, 65] := by simp
  cases command with
  | tokenize formula => exact hread (Outcome.tokenize_code_mem formula)
  | parse formula => exact hread (Outcome.parse_code_mem formula)
  | eval formula points window => exact Outcome.eval_code_mem formula points window
  | batch file window =>
    cases content with
    | ok text => exact hfile (Outcome.batch_code_mem file text window)
    | error reason =>
      rw [answer, Outcome.unreadable, Outcome.failed]
      exact hfile (by simp [FailureKind.exitCode])

theorem Invocation.run_code (invocation : Invocation) (content : Except String String) :
    (invocation.run content).code = (invocation.command.answer content).code := by
  unfold run
  dsimp only
  split <;> rfl

namespace Formula

/-- **A formula has a function or an error about its text, and no command exits with the code for
unsupported formulas.** -/
theorem compile_fails_by_text :
    (∀ formula, (∃ f, compile formula = .ok f) ∨
        ∃ e, compile formula = .error e ∧ e.OfText ∧ e.kind = some .badFormula) ∧
      (∀ formula, ∀ step ∈ Token.steps formula, ∀ e, step.result = .error e →
        FormulaError.OfText (.lex e)) ∧
      ∀ (invocation : Invocation) (content : Except String String),
        (invocation.run content).code ≠ 70 := by
  refine ⟨fun formula => ?_, fun formula step hstep e he => ?_, fun invocation content => ?_⟩
  · cases h : compile formula with
    | ok f => exact .inl ⟨f, rfl⟩
    | error e => exact .inr ⟨e, rfl, ofText_of_compile h, (ofText_of_compile h).kind_eq⟩
  · refine ofText_lex fun literal offset heq => ?_
    exact (Token.isSound_of_mem_steps formula step hstep).2 literal offset (heq ▸ he)
  · have hcode := invocation.command.answer_code_mem content
    rw [invocation.run_code]
    intro h
    simp [h] at hcode

end Formula

end Branchwise
