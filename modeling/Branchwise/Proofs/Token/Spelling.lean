/-
What reading gives is what later stages know.

Parsing goes by kinds and looking up goes by names.  A token that is read has both from one keyword,
so an operator has the name of an operation, a function the name of a function and a constant the
name of a constant.  The only error on the way that is not about the text, digits that write no
number, does not occur.  Both hold of every step of reading, also of the steps before an error.
-/
import Branchwise.Proofs.Failure
import Branchwise.Proofs.Token.Numeral

namespace Branchwise

open Text (Glyph)

namespace Token

/-- A token with a kind that takes a name has a name of that kind. -/
def IsSpelled (t : Token) : Prop :=
  match t.kind with
  | .unary => t.literal = Named.name Operator.sub
  | .binary => ∃ op : Operator, Named.name op = t.literal
  | .function1 => ∃ f : Function, Named.name f = t.literal
  | .function2 => ∃ f : Function2, Named.name f = t.literal
  | .constant => ∃ c : Constant, Named.name c = t.literal
  | _ => True

/-- A token that is well spelled, or an error that is about the text. -/
def Step.IsSound (step : Step) : Prop :=
  (∀ t, step.result = .ok t → t.IsSpelled) ∧
    ∀ literal offset, step.result ≠ .error (.unreadableNumeral literal offset)

/-! ### One token -/

theorem isSpelled_keyword (previous : Option Kind) (word : Keyword) (offset : Nat) :
    IsSpelled ⟨word.kind previous, word.spelling, offset⟩ := by
  cases word with
  | operator name =>
    cases name with
    | sub =>
      rw [Keyword.kind]
      split
      · exact ⟨Operator.sub, rfl⟩
      · rfl
    | _ => exact ⟨_, rfl⟩
  | constant name => exact ⟨name, rfl⟩
  | function name => exact ⟨name, rfl⟩
  | function2 name => exact ⟨name, rfl⟩
  | _ => trivial

theorem isSpelled_impliedProduct (offset : Nat) : (impliedProduct offset).IsSpelled :=
  ⟨.mul, rfl⟩

variable {known known' : Option Variable} {previous : Option Kind} {g : Glyph} {rest : List Glyph}

theorem isSpelled_of_ofLexeme {lexeme : Lexeme} {t : Token}
    (h : ofLexeme known previous g rest lexeme = .ok (t, known')) : t.IsSpelled := by
  rcases ofLexeme_ok_cases h with ⟨word, -, rfl, -⟩ | ⟨-, rfl, -⟩ | ⟨width, x, -, -, rfl, -⟩
  · exact isSpelled_keyword previous word g.offset
  · trivial
  · trivial

/-- A numeral is scanned only where a digit stands, and then to its end. -/
theorem Lexeme.exists_read?_of_scan {width : Nat} (h : scan g rest = .numeral width) :
    ∃ x, Decimal.read? (((g :: rest).take width).map (·.char)) = some x := by
  rcases scan_cases g rest with
    ⟨word, -, hscan⟩ | ⟨-, ⟨-, hscan⟩ | ⟨hdigit, hscan⟩ | ⟨-, -, hscan⟩⟩
  · cases hscan.symm.trans h
  · cases hscan.symm.trans h
  · obtain rfl := Lexeme.numeral.inj (hscan.symm.trans h)
    rw [numeralWidth_eq_digitsWidth, List.map_take]
    exact (isNumeral_take_digitsWidth hdigit (rest.map Glyph.char)).exists_read?
  · cases hscan.symm.trans h

theorem ofLexeme_scan_ne_unreadableNumeral (literal : String) (offset : Nat) :
    ofLexeme known previous g rest (Lexeme.scan g rest) ≠
      .error (.unreadableNumeral literal offset) := by
  intro h
  rcases ofLexeme_error_cases h with ⟨-, he⟩ | ⟨-, v, -, -, he⟩ | ⟨width, hscan, hnone, -⟩
  · cases he
  · cases he
  · obtain ⟨x, hx⟩ := Lexeme.exists_read?_of_scan hscan
    rw [hx] at hnone
    cases hnone

/-! ### All tokens -/

theorem isSound_of_mem_readFrom (glyphs : List Glyph) :
    ∀ step ∈ readFrom known previous glyphs, step.IsSound := by
  fun_induction readFrom known previous glyphs with
  | case1 => simp
  | case2 known previous g rest lexeme e =>
    rename_i he
    intro step hstep
    obtain rfl := List.mem_singleton.1 hstep
    refine ⟨nofun, fun literal offset h => ?_⟩
    cases h
    exact ofLexeme_scan_ne_unreadableNumeral literal offset he
  | case3 known previous g rest lexeme t known' ht =>
    rename_i ih
    intro step hstep
    rcases List.mem_cons.1 hstep with rfl | hmem
    · refine ⟨fun t' ht' => ?_, nofun⟩
      obtain rfl := Except.ok.inj ht'
      exact isSpelled_of_ofLexeme ht
    · exact ih step hmem

theorem isSound_of_mem_withProducts {steps : List Step} (h : ∀ step ∈ steps, step.IsSound)
    (previous : Option Kind) : ∀ step ∈ withProducts previous steps, step.IsSound := by
  induction steps generalizing previous with
  | nil => simp [withProducts]
  | cons step rest ih =>
    obtain ⟨hstep, hrest⟩ := List.forall_mem_cons.1 h
    unfold withProducts
    split
    · exact List.forall_mem_cons.2 ⟨hstep, ih hrest previous⟩
    · rename_i t ht
      split
      · refine List.forall_mem_cons.2 ⟨⟨?_, nofun⟩, List.forall_mem_cons.2 ⟨hstep, ih hrest _⟩⟩
        intro t' ht'
        obtain rfl := Except.ok.inj ht'
        exact isSpelled_impliedProduct t.offset
      · exact List.forall_mem_cons.2 ⟨hstep, ih hrest _⟩

/-- **Every step of reading gives a well spelled token or an error about the text.** -/
theorem isSound_of_mem_steps (formula : String) : ∀ step ∈ steps formula, step.IsSound :=
  isSound_of_mem_withProducts (isSound_of_mem_readFrom _) none

end Token

theorem isSpelled_of_tokenize {formula : String} {ts : List Token}
    (h : tokenize formula = .ok ts) : ∀ t ∈ ts, t.IsSpelled := by
  intro t ht
  obtain ⟨step, hstep, hresult⟩ := exists_of_mapM_eq_ok h t ht
  exact (Token.isSound_of_mem_steps formula step hstep).1 t hresult

theorem tokenize_ne_unreadableNumeral (formula : String) (literal : String) (offset : Nat) :
    tokenize formula ≠ .error (.unreadableNumeral literal offset) := by
  intro h
  obtain ⟨step, hstep, hresult⟩ := exists_of_mapM_eq_error h
  exact (Token.isSound_of_mem_steps formula step hstep).2 literal offset hresult

end Branchwise
