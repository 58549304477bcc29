/-
Where parsing stops, something is written.

The first token that parsing leaves unread may be an operator, but no value stands behind it then:
an expression that goes on with an operator and a value is a longer expression, and parsing stops
behind the longest one.  Only at the very start is there no expression to go on from, so an operator
that a formula starts with is left unread whatever follows it.

A product that is implied stands between two values.  So it is never the token at which parsing
stops, and an error never points at something that is not in the text.
-/
import Mathlib
import Branchwise.Formula
import Branchwise.Proofs.Expr.Beginning
import Branchwise.Proofs.Token.Stream

namespace Branchwise

variable {formula : String} {ts : List Token} {c : IncompleteExpression} {t v : Token}

/-- What is spelled as an operation writes one. -/
theorem Token.IsSpelled.isOperator (h : t.IsSpelled) (hbinary : t.kind = .binary) :
    t.IsOperator := by
  obtain ⟨op, hop⟩ : ∃ op : Operator, Named.name op = t.literal := by
    simpa [IsSpelled, hbinary] using h
  exact ⟨hbinary, by rw [← hop]; cases op <;> decide⟩

/-- **No value stands behind an operator that is left unread**, except at the start. -/
theorem not_isValue_behind_unread (htokens : tokenize formula = .ok ts) (h : parse ts = .error c)
    (hpos : 0 < c.consumed) (ht : ts[c.consumed]? = some t) (hbinary : t.kind = .binary)
    (hv : ts[c.consumed + 1]? = some v) : ¬ v.isValue := by
  obtain ⟨hderivable, hlongest, -⟩ := parse_eq_error_iff.1 h
  have hspelled := isSpelled_of_tokenize htokens t (List.mem_of_getElem? ht)
  exact hlongest.not_isValue hderivable hpos ht (hspelled.isOperator hbinary) hv

/-- **The first token that is left unread was read from the text.**  It is no operator with a value
behind it, unless nothing is read. -/
theorem unread_token_is_written (htokens : tokenize formula = .ok ts) (h : parse ts = .error c) :
    ∃ read last place,
      Token.Reader.Run (.ofText formula.toList) read (Token.steps formula) last ∧
        Token.Interleaves read ts place ∧
        (∀ t, ts[c.consumed]? = some t → ∃ j, place j = c.consumed) ∧
        (0 < c.consumed → ∀ t v, ts[c.consumed]? = some t → ts[c.consumed + 1]? = some v →
          ¬(t.kind = .binary ∧ v.isValue)) := by
  obtain ⟨read, last, place, hrun, hinterleaves⟩ := Token.exists_interleaves formula
  rw [Token.given_of_mapM_eq_ok htokens] at hinterleaves
  refine ⟨read, last, place, hrun, hinterleaves, ?_, ?_⟩
  · intro t ht
    by_contra hnone
    have hunread : ∀ j, place j ≠ c.consumed := fun j hj => hnone ⟨j, hj⟩
    obtain ⟨u, hu, rfl⟩ := (hinterleaves.implied_iff _ t ht).1 hunread
    obtain ⟨j, -, w, -, hw, -, hvalue, hbefore, hbehind⟩ :=
      (hinterleaves.between_iff _ _ ht).1 hunread
    rw [← hinterleaves.released, ← hbehind] at hw
    exact not_isValue_behind_unread htokens h (by omega) ht rfl hw hvalue
  · rintro hpos t v ht hv ⟨hbinary, hvalue⟩
    exact not_isValue_behind_unread htokens h hpos ht hbinary hv hvalue

/-- Behind two values, a product that nothing follows but a bracket. -/
theorem unread_token_is_written_operator :
    let formula := "z z* )"
    let ts : List Token := [⟨.letter, "z", 0⟩, ⟨.binary, "*", 2⟩, ⟨.letter, "z", 2⟩,
      ⟨.binary, "*", 3⟩, ⟨.rightParen, ")", 5⟩]
    let c : IncompleteExpression := ⟨3, some ⟨.binary, "*", 3⟩⟩
    tokenize formula = .ok ts ∧ parse ts = .error c ∧
      ∃ read last place,
        Token.Reader.Run (.ofText formula.toList) read (Token.steps formula) last ∧
          Token.Interleaves read ts place ∧
          (∀ t, ts[c.consumed]? = some t → ∃ j, place j = c.consumed) ∧
          (0 < c.consumed → ∀ t v, ts[c.consumed]? = some t → ts[c.consumed + 1]? = some v →
            ¬(t.kind = .binary ∧ v.isValue)) := by
  intro formula ts c
  have htokens : tokenize formula = .ok ts := by cbv
  have h : parse ts = .error c := by cbv
  exact ⟨htokens, h, unread_token_is_written htokens h⟩

/-- A plus negates nothing, so a formula that starts with one is left unread from there. -/
theorem leading_operator_is_unread :
    let formula := "+z"
    let ts : List Token := [⟨.binary, "+", 0⟩, ⟨.letter, "z", 1⟩]
    let c : IncompleteExpression := ⟨0, some ⟨.binary, "+", 0⟩⟩
    tokenize formula = .ok ts ∧ parse ts = .error c ∧
      ∃ t v, ts[c.consumed]? = some t ∧ t.kind = .binary ∧ ts[c.consumed + 1]? = some v ∧
        v.isValue := by
  intro formula ts c
  have htokens : tokenize formula = .ok ts := by cbv
  have h : parse ts = .error c := by cbv
  exact ⟨htokens, h, _, _, rfl, rfl, rfl, rfl⟩

end Branchwise
