/-
Replacing the variable.

Three substitutions run side by side: a bracketed text for each variable token, a group for each
variable leaf of a tree, a function for each variable of a function.  They agree because a
group hides what it holds.  No operator of the inserted text stands outside brackets, so the
operations of the outer tree are split where they were before, and a bracket at either end of a
window leads no minus and opens no call that was not there.
-/
import Mathlib
import Branchwise.Proofs.Multifunction.Compile

namespace Branchwise

/-- The tokens with `body` for each letter. -/
def replaceVariable (body ts : List Token) : List Token :=
  ts.flatMap fun t => if t.kind = .letter then body else [t]

/-- The tree with `group` for each letter. -/
def Expr.substitute : Expr → Expr → Expr
  | .value token, group => if token.kind = .letter then group else .value token
  | .call function opening argument closing, group =>
    .call function opening (argument.substitute group) closing
  | .call2 function opening first separator second closing, group =>
    .call2 function opening (first.substitute group) separator (second.substitute group) closing
  | .unary operator operand, group => .unary operator (operand.substitute group)
  | .paren opening inner closing, group => .paren opening (inner.substitute group) closing
  | .binary left operator right, group =>
    .binary (left.substitute group) operator (right.substitute group)

/-- The function with `g` for its variable. -/
def Multifunction.substitute : Multifunction → Multifunction → Multifunction
  | constant value, _ => constant value
  | var, g => g
  | negate operand, g => negate (operand.substitute g)
  | binary operator left right, g => binary operator (left.substitute g) (right.substitute g)
  | call function argument, g => call function (argument.substitute g)
  | call2 function first second, g => call2 function (first.substitute g) (second.substitute g)

/-! ### Token sequences -/

section Tokens

variable {body ts us : List Token} {t : Token}

@[simp] theorem replaceVariable_nil : replaceVariable body [] = [] := rfl

@[simp] theorem replaceVariable_append :
    replaceVariable body (ts ++ us) = replaceVariable body ts ++ replaceVariable body us :=
  List.flatMap_append

theorem replaceVariable_cons_of_letter (ht : t.kind = .letter) :
    replaceVariable body (t :: ts) = body ++ replaceVariable body ts := by
  simp [replaceVariable, ht]

@[simp] theorem replaceVariable_cons (ht : t.kind ≠ .letter) :
    replaceVariable body (t :: ts) = t :: replaceVariable body ts := by
  simp [replaceVariable, ht]

end Tokens

/-! ### Trees -/

namespace Expr

variable {e group : Expr}

theorem Grammatical.tokens_substitute (h : e.Grammatical) :
    (e.substitute group).tokens = replaceVariable group.tokens e.tokens := by
  induction e with
  | value t =>
    by_cases ht : t.kind = .letter
    · simp [substitute, tokens, ht, replaceVariable_cons_of_letter]
    · simp [substitute, tokens, ht]
  | call f opening argument closing ih =>
    obtain ⟨hf, hopen, hclose, hargument⟩ := h
    simp [substitute, tokens, ih hargument, hf, hopen, hclose]
  | call2 f opening first separator second closing ihFirst ihSecond =>
    obtain ⟨hf, hopen, hsep, hclose, hfirst, hsecond⟩ := h
    simp [substitute, tokens, ihFirst hfirst, ihSecond hsecond, hf, hopen, hsep, hclose]
  | unary op operand ih => simp [substitute, tokens, ih h.2, h.1]
  | paren opening inner closing ih =>
    obtain ⟨hopen, hclose, hinner⟩ := h
    simp [substitute, tokens, ih hinner, hopen, hclose]
  | binary left op right ihLeft ihRight =>
    obtain ⟨hop, hleft, hright⟩ := h
    simp [substitute, tokens, ihLeft hleft, ihRight hright, hop.1]

theorem Grammatical.substitute (h : e.Grammatical) (hgroup : group.Grammatical) :
    (e.substitute group).Grammatical := by
  induction e with
  | value t =>
    unfold Expr.substitute
    split
    · exact hgroup
    · exact h
  | call f opening argument closing ih =>
    obtain ⟨hf, hopen, hclose, hargument⟩ := h
    exact ⟨hf, hopen, hclose, ih hargument⟩
  | call2 f opening first separator second closing ihFirst ihSecond =>
    obtain ⟨hf, hopen, hsep, hclose, hfirst, hsecond⟩ := h
    exact ⟨hf, hopen, hsep, hclose, ihFirst hfirst, ihSecond hsecond⟩
  | unary op operand ih => exact ⟨h.1, ih h.2⟩
  | paren opening inner closing ih => exact ⟨h.1, h.2.1, ih h.2.2⟩
  | binary left op right ihLeft ihRight => exact ⟨h.1, ihLeft h.2.1, ihRight h.2.2⟩

/-- What may be written for a letter without a trace outside brackets. -/
structure Closed (group : Expr) : Prop where
  outerOperators : group.outerOperators = []
  leading : ¬ group.LeadsWithUnary

theorem closed_paren {opening inner closing} : (paren opening inner closing).Closed :=
  ⟨rfl, id⟩

theorem Closed.outerOperators_substitute (hgroup : group.Closed) :
    (e.substitute group).outerOperators = e.outerOperators := by
  induction e with
  | value t =>
    unfold Expr.substitute
    split
    · exact hgroup.outerOperators
    · rfl
  | call | call2 | paren => rfl
  | unary op operand ih => exact ih
  | binary left op right ihLeft ihRight =>
    simp only [Expr.substitute, Expr.outerOperators, ihLeft, ihRight]

theorem Closed.leadsWithUnary_substitute (hgroup : group.Closed) :
    (e.substitute group).LeadsWithUnary ↔ e.LeadsWithUnary := by
  induction e with
  | value t =>
    unfold Expr.substitute
    split
    · exact ⟨fun h => (hgroup.leading h).elim, False.elim⟩
    · rfl
  | call | call2 | paren | unary => rfl
  | binary left op right ih _ => exact ih

/-- **Operators bind as they did before.** -/
theorem Canonical.substitute (h : e.Canonical) (hgroup : group.Closed)
    (hcanon : group.Canonical) : (e.substitute group).Canonical := by
  induction e with
  | value t =>
    unfold Expr.substitute
    split
    · exact hcanon
    · trivial
  | call f opening argument closing ih => exact ih h
  | call2 f opening first separator second closing ihFirst ihSecond =>
    exact ⟨ihFirst h.1, ihSecond h.2⟩
  | unary op operand ih => exact ih h
  | paren opening inner closing ih => exact ih h
  | binary left op right ihLeft ihRight =>
    obtain ⟨hlead, hyieldLeft, hyieldRight, hleft, hright⟩ := h
    refine ⟨mt hgroup.leadsWithUnary_substitute.1 hlead, ?_, ?_, ihLeft hleft, ihRight hright⟩
    · rwa [hgroup.outerOperators_substitute]
    · rwa [hgroup.outerOperators_substitute]

end Expr

/-! ### Functions -/

namespace Multifunction

/-- Of the tokens that are values only the letter holds the variable. -/
theorem substitute_of_ofToken {t : Token} {f g : Multifunction} (ht : t.kind ≠ .letter)
    (h : ofToken t = .ok f) : f.substitute g = f := by
  unfold ofToken at h
  split at h
  · cases h
    rfl
  · exact absurd ‹_› ht
  · obtain ⟨name, -, h⟩ := bind_eq_ok_iff.1 h
    cases h
    rfl
  · cases h

/-- **Looking names up commutes with substitution.** -/
theorem ofExpr_substitute {e group : Expr} {f g : Multifunction} (hf : ofExpr e = .ok f)
    (hg : ofExpr group = .ok g) : ofExpr (e.substitute group) = .ok (f.substitute g) := by
  induction e generalizing f with
  | value t =>
    unfold ofExpr at hf
    unfold Expr.substitute
    split
    · have hvar : ofToken t = .ok var := by rw [ofToken, ‹t.kind = .letter›]
      obtain rfl : var = f := Except.ok.inj (hvar.symm.trans hf)
      exact hg
    · rwa [substitute_of_ofToken ‹_› hf]
  | call t opening argument closing ih =>
    obtain ⟨name, hname, f', hf', rfl⟩ := ofExpr_call_eq_ok_iff.1 hf
    exact ofExpr_call_eq_ok_iff.2 ⟨name, hname, _, ih hf', rfl⟩
  | call2 t opening first separator second closing ihFirst ihSecond =>
    obtain ⟨name, hname, f₁, hf₁, f₂, hf₂, rfl⟩ := ofExpr_call2_eq_ok_iff.1 hf
    exact ofExpr_call2_eq_ok_iff.2 ⟨name, hname, _, ihFirst hf₁, _, ihSecond hf₂, rfl⟩
  | unary op operand ih =>
    obtain ⟨hname, f', hf', rfl⟩ := ofExpr_unary_eq_ok_iff.1 hf
    exact ofExpr_unary_eq_ok_iff.2 ⟨hname, _, ih hf', rfl⟩
  | paren opening inner closing ih => exact ih hf
  | binary left op right ihLeft ihRight =>
    obtain ⟨name, hname, l, hl, r, hr, rfl⟩ := ofExpr_binary_eq_ok_iff.1 hf
    exact ofExpr_binary_eq_ok_iff.2 ⟨name, hname, _, ihLeft hl, _, ihRight hr, rfl⟩

end Multifunction

/-- **Replacing the variable by a bracketed formula replaces it in the function.** -/
theorem compiles_replaceVariable {ts us : List Token} {f g : Multifunction}
    {opening closing : Token} (hf : Compiles ts f) (hg : Compiles us g)
    (hopen : opening.kind = .leftParen) (hclose : closing.kind = .rightParen) :
    Compiles (replaceVariable (opening :: us ++ [closing]) ts) (f.substitute g) := by
  obtain ⟨e, he, hf⟩ := hf
  obtain ⟨hgram, hcanon, rfl⟩ := parse_eq_ok_iff.1 he
  obtain ⟨tree, htree, hg⟩ := hg
  obtain ⟨hgramTree, hcanonTree, rfl⟩ := parse_eq_ok_iff.1 htree
  let group := Expr.paren opening tree closing
  have hgroup : group.Grammatical := ⟨hopen, hclose, hgramTree⟩
  exact ⟨e.substitute group,
    parse_eq_ok_iff.2 ⟨hgram.substitute hgroup, hcanon.substitute Expr.closed_paren hcanonTree,
      hgram.tokens_substitute⟩,
    Multifunction.ofExpr_substitute hf hg⟩

/-- In `z^z`, with `-z-z` for the variable, the inserted minus takes nothing from the power. -/
theorem compiles_replaceVariable_power :
    let z : Token := ⟨.letter, "z", 0⟩
    let power := [z, ⟨.binary, "^", 0⟩, z]
    let difference := [⟨.unary, "-", 0⟩, z, ⟨.binary, "-", 0⟩, z]
    let opening : Token := ⟨.leftParen, "(", 0⟩
    let closing : Token := ⟨.rightParen, ")", 0⟩
    let g := Multifunction.negate (.binary .sub .var .var)
    Compiles power (.binary .pow .var .var) ∧ Compiles difference g ∧
      Compiles (replaceVariable (opening :: difference ++ [closing]) power)
        (.binary .pow g g) := by
  intro z power difference opening closing g
  have hpower : Compiles power (.binary .pow .var .var) :=
    ⟨.binary (.value z) ⟨.binary, "^", 0⟩ (.value z), by cbv, rfl⟩
  have hdifference : Compiles difference g :=
    ⟨.unary ⟨.unary, "-", 0⟩ (.binary (.value z) ⟨.binary, "-", 0⟩ (.value z)), by cbv, rfl⟩
  exact ⟨hpower, hdifference, compiles_replaceVariable hpower hdifference rfl rfl⟩

end Branchwise
