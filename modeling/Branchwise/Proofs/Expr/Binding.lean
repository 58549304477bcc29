/-
Precedence and associativity, said of the tokens under each operation.

`Expr.Canonical` compares operators within a tree.  What a reader of formulas goes by is the
row of tokens under an operation: among the operators outside brackets its own binds
loosest, and of equals it is the last one, or the first where powers meet.  The two say the same
of a grammatical tree, and so parsing is pinned down by a property that never mentions how the
search proceeds (`parse_respectsBinding`).
-/
import Mathlib
import Branchwise.Proofs.Expr.Precedence

namespace Branchwise

/-- The operation with these tokens on either side is split where its tokens demand it. -/
structure BindsLoosest (left : List Token) (op : Token) (right : List Token) : Prop where
  operator : op.IsOperator
  /-- The operator stands outside all brackets. -/
  outside : bracketDepth left = 0
  /-- A minus in front would have taken all of the tokens. -/
  leading : ∀ t rest, left ++ op :: right = t :: rest → t.kind ≠ .unary
  loosest : ∀ pre t post, left ++ op :: right = pre ++ t :: post → bracketDepth pre = 0 →
    t.kind = .binary → op.level ≤ t.level
  rightmost : ∀ pre t post, left ++ op :: right = pre ++ t :: post → bracketDepth pre = 0 →
    t.kind = .binary → t.level = op.level → ¬ op.GroupsRight → pre.length ≤ left.length
  leftmost : ∀ pre t post, left ++ op :: right = pre ++ t :: post → bracketDepth pre = 0 →
    t.kind = .binary → t.level = op.level → op.GroupsRight → left.length ≤ pre.length

namespace Expr

/-- The tree and all trees below it. -/
def nodes : Expr → List Expr
  | value token => [value token]
  | call function opening argument closing =>
    call function opening argument closing :: argument.nodes
  | call2 function opening first separator second closing =>
    call2 function opening first separator second closing :: (first.nodes ++ second.nodes)
  | unary operator operand => unary operator operand :: operand.nodes
  | paren opening inner closing => paren opening inner closing :: inner.nodes
  | binary left operator right => binary left operator right :: (left.nodes ++ right.nodes)

/-- Every operation in the tree is split where its tokens demand it. -/
def RespectsBinding (e : Expr) : Prop :=
  ∀ left op right, binary left op right ∈ e.nodes → BindsLoosest left.tokens op right.tokens

/-! ### One operation -/

/-- An operator outside brackets is in the left operand, is the operation's own, or is in the
right operand. -/
theorem Grammatical.cut_cases {left right : Expr} {op t : Token} {pre post : List Token}
    (h : (binary left op right).Grammatical)
    (hcut : left.tokens ++ op :: right.tokens = pre ++ t :: post) (hdepth : bracketDepth pre = 0)
    (hk : t.kind = .binary) :
    (pre.length < left.tokens.length ∧ t ∈ left.outerOperators) ∨
      (pre.length = left.tokens.length ∧ t = op) ∨
      (left.tokens.length < pre.length ∧ t ∈ right.outerOperators) := by
  obtain ⟨hop, hleft, hright⟩ := h
  rcases List.append_eq_append_iff.1 hcut with ⟨mid, rfl, hmid⟩ | ⟨mid, hmid, hmid'⟩
  · cases mid with
    | nil =>
      obtain ⟨rfl, -⟩ := List.cons.inj hmid
      exact .inr (.inl ⟨by simp, rfl⟩)
    | cons head mid =>
      simp only [List.cons_append, List.cons.injEq] at hmid
      obtain ⟨rfl, hmid⟩ := hmid
      have hdepth' : bracketDepth mid = 0 := by
        simpa [hleft.balanced.total, Token.rise_of_isOperator hop] using hdepth
      exact .inr (.inr ⟨by simp, ((hright.cut hmid hdepth').2 hk).1⟩)
  · cases mid with
    | nil =>
      obtain ⟨rfl, -⟩ := List.cons.inj hmid'
      exact .inr (.inl ⟨by simp [hmid], rfl⟩)
    | cons head mid =>
      obtain ⟨rfl, -⟩ := List.cons.inj hmid'
      exact .inl ⟨by simp [hmid], ((hleft.cut hmid hdepth).2 hk).1⟩

theorem bindsLoosest_iff {left right : Expr} {op : Token}
    (h : (binary left op right).Grammatical) :
    BindsLoosest left.tokens op right.tokens ↔
      ¬ left.LeadsWithUnary ∧ (∀ t ∈ left.outerOperators, op.YieldsLeft t) ∧
        ∀ t ∈ right.outerOperators, op.YieldsRight t := by
  obtain ⟨hop, hleft, hright⟩ := id h
  refine ⟨?_, ?_⟩
  · intro hbinds
    refine ⟨fun hlead => ?_, fun t ht => ?_, fun t ht => ?_⟩
    · obtain ⟨t, rest, htokens, hk⟩ := LeadsWithUnary.exists_head h hlead
      exact hbinds.leading t rest htokens hk
    · obtain ⟨hop', pre, post, htokens, hdepth⟩ := hleft.exists_cut ht
      have hcut : left.tokens ++ op :: right.tokens = pre ++ t :: (post ++ op :: right.tokens) := by
        simp [htokens]
      rcases Nat.lt_or_eq_of_le (hbinds.loosest _ _ _ hcut hdepth hop'.1) with hlt | heq
      · exact .inl hlt
      · refine .inr ⟨heq, fun hgroups => ?_⟩
        have hle := hbinds.leftmost _ _ _ hcut hdepth hop'.1 heq.symm hgroups
        rw [htokens, List.length_append, List.length_cons] at hle
        omega
    · obtain ⟨hop', pre, post, htokens, hdepth⟩ := hright.exists_cut ht
      have hcut : left.tokens ++ op :: right.tokens = (left.tokens ++ op :: pre) ++ t :: post := by
        simp [htokens]
      have hdepth' : bracketDepth (left.tokens ++ op :: pre) = 0 := by
        simp [hleft.balanced.total, Token.rise_of_isOperator hop, hdepth]
      rcases Nat.lt_or_eq_of_le (hbinds.loosest _ _ _ hcut hdepth' hop'.1) with hlt | heq
      · exact .inl hlt
      · by_cases hgroups : op.GroupsRight
        · exact .inr ⟨heq, hgroups⟩
        · have hle := hbinds.rightmost _ _ _ hcut hdepth' hop'.1 heq.symm hgroups
          rw [List.length_append, List.length_cons] at hle
          omega
  · intro h
    obtain ⟨hlead, hyieldLeft, hyieldRight⟩ := h
    refine ⟨hop, hleft.balanced.total, fun t rest htokens => ?_, ?_, ?_, ?_⟩
    · exact head_kind_ne_unary (e := binary left op right) h hlead htokens
    · intro pre t post hcut hdepth hk
      rcases h.cut_cases hcut hdepth hk with ⟨-, ht⟩ | ⟨-, rfl⟩ | ⟨-, ht⟩
      · rcases hyieldLeft t ht with hlt | ⟨heq, -⟩ <;> omega
      · exact Nat.le_refl _
      · rcases hyieldRight t ht with hlt | ⟨heq, -⟩ <;> omega
    · intro pre t post hcut hdepth hk hlevel hgroups
      rcases h.cut_cases hcut hdepth hk with ⟨hlt, -⟩ | ⟨heq, -⟩ | ⟨-, ht⟩
      · omega
      · omega
      · rcases hyieldRight t ht with hlt | ⟨-, hgroups'⟩
        · omega
        · exact absurd hgroups' hgroups
    · intro pre t post hcut hdepth hk hlevel hgroups
      rcases h.cut_cases hcut hdepth hk with ⟨-, ht⟩ | ⟨heq, -⟩ | ⟨hlt, -⟩
      · rcases hyieldLeft t ht with hlt | ⟨-, hgroups'⟩
        · omega
        · exact absurd hgroups hgroups'
      · omega
      · omega

/-! ### All operations of a tree -/

theorem respectsBinding_call2 {f opening separator closing : Token} {first second : Expr} :
    (call2 f opening first separator second closing).RespectsBinding ↔
      first.RespectsBinding ∧ second.RespectsBinding := by
  simp only [RespectsBinding, nodes, List.mem_cons, List.mem_append, reduceCtorEq, false_or]
  refine ⟨?_, ?_⟩
  · intro h
    exact ⟨fun l o r hmem => h l o r (.inl hmem), fun l o r hmem => h l o r (.inr hmem)⟩
  · rintro ⟨hfirst, hsecond⟩ l o r (hmem | hmem)
    · exact hfirst l o r hmem
    · exact hsecond l o r hmem

theorem respectsBinding_binary {left right : Expr} {op : Token} :
    (binary left op right).RespectsBinding ↔
      BindsLoosest left.tokens op right.tokens ∧ left.RespectsBinding ∧
        right.RespectsBinding := by
  simp only [RespectsBinding, nodes, List.mem_cons, List.mem_append]
  refine ⟨?_, ?_⟩
  · intro h
    exact ⟨h left op right (.inl rfl), fun l o r hmem => h l o r (.inr (.inl hmem)),
      fun l o r hmem => h l o r (.inr (.inr hmem))⟩
  · rintro ⟨htop, hleft, hright⟩ l o r (heq | hmem | hmem)
    · obtain ⟨rfl, rfl, rfl⟩ := Expr.binary.inj heq
      exact htop
    · exact hleft l o r hmem
    · exact hright l o r hmem

/-- **Respecting the binding of operators is being canonical.** -/
theorem respectsBinding_iff_canonical {e : Expr} (h : e.Grammatical) :
    e.RespectsBinding ↔ e.Canonical := by
  induction e with
  | value => simp [RespectsBinding, nodes, Canonical]
  | call f opening argument closing ih =>
    rw [Canonical, ← ih h.2.2.2]
    simp [RespectsBinding, nodes]
  | call2 f opening first separator second closing ihFirst ihSecond =>
    obtain ⟨-, -, -, -, hfirst, hsecond⟩ := h
    rw [respectsBinding_call2, Canonical, ihFirst hfirst, ihSecond hsecond]
  | unary op operand ih =>
    rw [Canonical, ← ih h.2]
    simp [RespectsBinding, nodes]
  | paren opening inner closing ih =>
    rw [Canonical, ← ih h.2.2]
    simp [RespectsBinding, nodes]
  | binary left op right ihLeft ihRight =>
    rw [respectsBinding_binary, bindsLoosest_iff h, ihLeft h.2.1, ihRight h.2.2, Canonical]
    simp only [and_assoc]

end Expr

/-- **Precedence and associativity hold everywhere in the tree of a sequence of tokens, and no
other tree over these tokens has them everywhere.** -/
theorem parse_respectsBinding {ts : List Token} {e : Expr} (h : parse ts = .ok e) :
    e.RespectsBinding ∧
      ∀ e' : Expr, e'.Grammatical → e'.tokens = ts → e'.RespectsBinding → e' = e := by
  obtain ⟨hgram, hcanon, htokens⟩ := parse_eq_ok_iff.1 h
  refine ⟨(Expr.respectsBinding_iff_canonical hgram).2 hcanon, fun e' hgram' htokens' he' => ?_⟩
  have hcanon' := (Expr.respectsBinding_iff_canonical hgram').1 he'
  exact hcanon'.unique hcanon hgram' hgram (htokens'.trans htokens.symm)

/-- In `z*-z-i-e` the last minus is outermost, although a minus that negates comes before. -/
theorem parse_respectsBinding_differences :
    ∃ (ts : List Token) (e : Expr), parse ts = .ok e ∧ e.toText = "(- (- (* z (- z)) i) e)" ∧
      e.RespectsBinding ∧
      ∀ e' : Expr, e'.Grammatical → e'.tokens = ts → e'.RespectsBinding → e' = e := by
  let z : Expr := .value ⟨.letter, "z", 0⟩
  let product : Expr := .binary z ⟨.binary, "*", 1⟩ (.unary ⟨.unary, "-", 2⟩ z)
  let difference : Expr := .binary product ⟨.binary, "-", 4⟩ (.value ⟨.constant, "i", 5⟩)
  let e : Expr := .binary difference ⟨.binary, "-", 6⟩ (.value ⟨.constant, "e", 7⟩)
  have h : parse e.tokens = .ok e := by cbv
  exact ⟨e.tokens, e, h, by decide, parse_respectsBinding h⟩

end Branchwise
