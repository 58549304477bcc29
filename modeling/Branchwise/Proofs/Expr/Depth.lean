/-
Brackets and the operators outside them.

What the grammar produces is balanced: its brackets close, and no beginning of it closes
more than it opened.  That is what tells the operators of a window apart.  Cut at an operator
outside all brackets, a derivable sequence falls into two derivable ones; cut at an operator
inside brackets, it leaves a bracket open on the left, and that is no expression.
-/
import Branchwise.Proofs.Expr.Derivation

namespace Branchwise

/-- How much deeper in brackets a token leads. -/
def Token.rise (t : Token) : Int :=
  if t.kind = .leftParen then 1 else if t.kind = .rightParen then -1 else 0

/-- How deep in brackets one is after these tokens. -/
def bracketDepth : List Token → Int
  | [] => 0
  | t :: ts => t.rise + bracketDepth ts

@[simp] theorem bracketDepth_nil : bracketDepth [] = 0 := rfl

@[simp] theorem bracketDepth_cons (t : Token) (ts : List Token) :
    bracketDepth (t :: ts) = t.rise + bracketDepth ts := rfl

@[simp] theorem bracketDepth_append (ts us : List Token) :
    bracketDepth (ts ++ us) = bracketDepth ts + bracketDepth us := by
  induction ts with
  | nil => simp
  | cons t ts ih => simp [ih, Int.add_assoc]

namespace Token

variable {t : Token}

theorem rise_of_leftParen (h : t.kind = .leftParen) : t.rise = 1 := by
  simp [rise, h]

theorem rise_of_rightParen (h : t.kind = .rightParen) : t.rise = -1 := by
  simp [rise, h]

theorem rise_eq_zero (hopen : t.kind ≠ .leftParen) (hclose : t.kind ≠ .rightParen) :
    t.rise = 0 := by
  simp [rise, hopen, hclose]

theorem rise_of_isValue (h : t.isValue) : t.rise = 0 := by
  refine rise_eq_zero ?_ ?_ <;> intro hk <;> simp [isValue, Kind.isValue, hk] at h

theorem rise_of_isOperator (h : t.IsOperator) : t.rise = 0 := by
  refine rise_eq_zero ?_ ?_ <;> simp [h.1]

end Token

/-! ### Balance -/

/-- The brackets close, and no beginning closes more of them than it opened. -/
structure Balanced (ts : List Token) : Prop where
  total : bracketDepth ts = 0
  nonneg : ∀ n, 0 ≤ bracketDepth (ts.take n)

namespace Balanced

theorem nil : Balanced [] :=
  ⟨rfl, by simp⟩

theorem append {ts us : List Token} (hts : Balanced ts) (hus : Balanced us) :
    Balanced (ts ++ us) := by
  refine ⟨by simp [hts.total, hus.total], fun n => ?_⟩
  rw [List.take_append, bracketDepth_append]
  have h₁ := hts.nonneg n
  have h₂ := hus.nonneg (n - ts.length)
  omega

/-- A token that is no bracket changes nothing. -/
theorem cons {t : Token} {ts : List Token} (ht : t.rise = 0) (hts : Balanced ts) :
    Balanced (t :: ts) := by
  refine ⟨by simp [ht, hts.total], fun n => ?_⟩
  cases n with
  | zero => simp
  | succ n => simpa [ht] using hts.nonneg n

theorem enclose {opening closing : Token} {ts : List Token} (hopen : opening.kind = .leftParen)
    (hclose : closing.kind = .rightParen) (hts : Balanced ts) :
    Balanced (opening :: ts ++ [closing]) := by
  have hup := Token.rise_of_leftParen hopen
  have hdown := Token.rise_of_rightParen hclose
  refine ⟨by simp [hup, hdown, hts.total], fun n => ?_⟩
  cases n with
  | zero => simp
  | succ n =>
    rw [List.cons_append, List.take_succ_cons, bracketDepth_cons, List.take_append,
      bracketDepth_append]
    have hinner := hts.nonneg n
    have hlast : -1 ≤ bracketDepth ([closing].take (n - ts.length)) := by
      cases n - ts.length <;> simp [hdown]
    omega

theorem nonneg_of_append {ts pre post : List Token} (hts : Balanced ts)
    (h : ts = pre ++ post) : 0 ≤ bracketDepth pre := by
  have := hts.nonneg pre.length
  rwa [h, List.take_left'  rfl] at this

end Balanced

/-- **What the grammar produces is balanced.** -/
theorem Derivable.balanced {ts : List Token} (h : Derivable ts) : Balanced ts := by
  induction h with
  | value ht => exact Balanced.nil.cons (Token.rise_of_isValue ht)
  | call hf hopen hclose _ ih =>
    exact (ih.enclose hopen hclose).cons (Token.rise_eq_zero (by simp [hf]) (by simp [hf]))
  | @call2 f opening separator closing first second hf hopen hsep hclose _ _ ihFirst ihSecond =>
    have hcomma := ihSecond.cons (Token.rise_eq_zero (t := separator) (by simp [hsep])
      (by simp [hsep]))
    have hinner := (ihFirst.append hcomma).enclose hopen hclose
    simpa using hinner.cons (Token.rise_eq_zero (t := f) (by simp [hf]) (by simp [hf]))
  | unary hop _ ih => exact ih.cons (Token.rise_eq_zero (by simp [hop]) (by simp [hop]))
  | paren hopen hclose _ ih => exact ih.enclose hopen hclose
  | binary hop _ _ ihLeft ihRight =>
    exact ihLeft.append (ihRight.cons (Token.rise_of_isOperator hop))

/-! ### Outside all brackets -/

/-- Between a bracket and its partner everything is inside, so only the two brackets
themselves stand outside. -/
theorem Balanced.outside_enclosed {opening closing t : Token} {ts pre post : List Token}
    (hopen : opening.kind = .leftParen) (hts : Balanced ts)
    (h : opening :: ts ++ [closing] = pre ++ t :: post) (hdepth : bracketDepth pre = 0) :
    t = opening ∨ t = closing := by
  cases pre with
  | nil => simp_all
  | cons head pre =>
    simp only [List.cons_append, List.cons.injEq] at h
    obtain ⟨rfl, h⟩ := h
    rw [bracketDepth_cons, Token.rise_of_leftParen hopen] at hdepth
    rcases List.append_eq_append_iff.1 h with ⟨mid, rfl, hmid⟩ | ⟨mid, hmid, -⟩
    · -- `t` is behind all of `ts`, where only the closing bracket is left
      cases mid with
      | nil => simp_all
      | cons head mid => simp at hmid
    · have := hts.nonneg_of_append hmid
      omega

/-- The operators that stand outside all brackets, from left to right. -/
def Expr.outerOperators : Expr → List Token
  | .value _ | .call .. | .call2 .. | .paren .. => []
  | .unary _ operand => operand.outerOperators
  | .binary left operator right => left.outerOperators ++ operator :: right.outerOperators

namespace Expr.Grammatical

theorem balanced {e : Expr} (h : e.Grammatical) : Balanced e.tokens :=
  h.derivable.balanced

/-- **A cut at an operator outside all brackets leaves an expression on either side.**  No
separator stands outside all brackets. -/
theorem cut {e : Expr} {pre post : List Token} {t : Token} (h : e.Grammatical)
    (htokens : e.tokens = pre ++ t :: post) (hdepth : bracketDepth pre = 0) :
    t.kind ≠ .separator ∧
      (t.kind = .binary → t ∈ e.outerOperators ∧ Derivable pre ∧ Derivable post) := by
  induction e generalizing pre post with
  | value token =>
    have : t.isValue := by
      cases pre <;> simp_all [tokens, Grammatical]
    constructor <;> intro hk <;> simp [Token.isValue, Token.Kind.isValue, hk] at this
  | call f opening argument closing _ =>
    obtain ⟨hf, hopen, hclose, hargument⟩ := h
    cases pre with
    | nil => simp_all [tokens]
    | cons head pre =>
      simp only [tokens, List.cons_append, List.cons.injEq] at htokens
      obtain ⟨rfl, htokens⟩ := htokens
      rw [bracketDepth_cons, Token.rise_eq_zero (by simp [hf]) (by simp [hf])] at hdepth
      rcases hargument.balanced.outside_enclosed hopen htokens (by omega) with rfl | rfl
      · simp [hopen]
      · simp [hclose]
  | call2 f opening first separator second closing _ _ =>
    obtain ⟨hf, hopen, hsep, hclose, hfirst, hsecond⟩ := h
    have hinner : Balanced (first.tokens ++ separator :: second.tokens) :=
      hfirst.balanced.append (hsecond.balanced.cons
        (Token.rise_eq_zero (by simp [hsep]) (by simp [hsep])))
    cases pre with
    | nil => simp_all [tokens]
    | cons head pre =>
      simp only [tokens, List.cons_append, List.cons.injEq] at htokens
      obtain ⟨rfl, htokens⟩ := htokens
      rw [bracketDepth_cons, Token.rise_eq_zero (by simp [hf]) (by simp [hf])] at hdepth
      have htokens : opening :: (first.tokens ++ separator :: second.tokens) ++ [closing] =
          pre ++ t :: post := by
        simpa using htokens
      rcases hinner.outside_enclosed hopen htokens (by omega) with rfl | rfl
      · simp [hopen]
      · simp [hclose]
  | unary op operand ih =>
    obtain ⟨hop, hoperand⟩ := h
    cases pre with
    | nil => simp_all [tokens]
    | cons head pre =>
      simp only [tokens, List.cons_append, List.cons.injEq] at htokens
      obtain ⟨rfl, htokens⟩ := htokens
      rw [bracketDepth_cons, Token.rise_eq_zero (by simp [hop]) (by simp [hop])] at hdepth
      obtain ⟨hsep, hbinary⟩ := ih hoperand htokens (by omega)
      refine ⟨hsep, fun hk => ?_⟩
      obtain ⟨hmem, hpre, hpost⟩ := hbinary hk
      exact ⟨hmem, .unary hop hpre, hpost⟩
  | paren opening inner closing _ =>
    obtain ⟨hopen, hclose, hinner⟩ := h
    rcases hinner.balanced.outside_enclosed hopen htokens hdepth with rfl | rfl
    · simp [hopen]
    · simp [hclose]
  | binary left op right ihLeft ihRight =>
    obtain ⟨hop, hleft, hright⟩ := h
    have hzero := Token.rise_of_isOperator hop
    rcases List.append_eq_append_iff.1 htokens with ⟨mid, rfl, hmid⟩ | ⟨mid, hmid, hmid'⟩
    · rw [bracketDepth_append, hleft.balanced.total] at hdepth
      cases mid with
      | nil =>
        obtain ⟨rfl, rfl⟩ := List.cons.inj hmid
        simpa [hop.1, outerOperators] using ⟨hleft.derivable, hright.derivable⟩
      | cons head mid =>
        simp only [List.cons_append, List.cons.injEq] at hmid
        obtain ⟨rfl, hmid⟩ := hmid
        rw [bracketDepth_cons, hzero] at hdepth
        obtain ⟨hsep, hbinary⟩ := ihRight hright hmid (by omega)
        refine ⟨hsep, fun hk => ?_⟩
        obtain ⟨hmem, hpre, hpost⟩ := hbinary hk
        exact ⟨by simp [outerOperators, hmem], .binary hop hleft.derivable hpre, hpost⟩
    · cases mid with
      | nil =>
        obtain ⟨rfl, rfl⟩ := List.cons.inj hmid'
        rw [List.append_nil] at hmid
        simpa [hop.1, outerOperators] using ⟨hmid ▸ hleft.derivable, hright.derivable⟩
      | cons head mid =>
        obtain ⟨rfl, rfl⟩ := List.cons.inj hmid'
        obtain ⟨hsep, hbinary⟩ := ihLeft hleft hmid hdepth
        refine ⟨hsep, fun hk => ?_⟩
        obtain ⟨hmem, hpre, hpost⟩ := hbinary hk
        exact ⟨by simp [outerOperators, hmem], hpre, .binary hop hpost hright.derivable⟩

/-- The operators outside all brackets do stand there. -/
theorem exists_cut {e : Expr} {t : Token} (h : e.Grammatical) (ht : t ∈ e.outerOperators) :
    t.IsOperator ∧ ∃ pre post, e.tokens = pre ++ t :: post ∧ bracketDepth pre = 0 := by
  induction e with
  | value | call | call2 | paren => simp [outerOperators] at ht
  | unary op operand ih =>
    obtain ⟨hop, pre, post, htokens, hdepth⟩ := ih h.2 ht
    refine ⟨hop, op :: pre, post, by simp [tokens, htokens], ?_⟩
    rw [bracketDepth_cons, Token.rise_eq_zero (by simp [h.1]) (by simp [h.1]), hdepth]
    rfl
  | binary left op right ihLeft ihRight =>
    obtain ⟨hop, hleft, hright⟩ := h
    simp only [outerOperators, List.mem_append, List.mem_cons] at ht
    rcases ht with ht | rfl | ht
    · obtain ⟨hop', pre, post, htokens, hdepth⟩ := ihLeft hleft ht
      exact ⟨hop', pre, post ++ op :: right.tokens, by simp [tokens, htokens], hdepth⟩
    · exact ⟨hop, left.tokens, right.tokens, rfl, hleft.balanced.total⟩
    · obtain ⟨hop', pre, post, htokens, hdepth⟩ := ihRight hright ht
      refine ⟨hop', left.tokens ++ op :: pre, post, by simp [tokens, htokens], ?_⟩
      simp [hleft.balanced.total, Token.rise_of_isOperator hop, hdepth]

end Expr.Grammatical

end Branchwise
