/-
Parentheses that may be left out.

A part of a tree is what fills a hole in the rest of it (`Expr.Context`), so putting a part in
parentheses means to fill the same hole with a group.  The tokens around the hole stay where they
are.  Around it, too, nothing can tell the difference but in one direction.  A group shows no
operator outside brackets and leads with no minus, where the part may have done both, and an
operation only asks of its operands that they do not do such things.  What was canonical stays so,
and looking names up never sees the group.
-/
import Mathlib
import Branchwise.Proofs.Expr.Binding
import Branchwise.Proofs.Multifunction.Substitution

namespace Branchwise

namespace Expr

/-- A tree with one part left out; the names say where in a node the part is. -/
inductive Context
  | hole
  | argument (function opening : Token) (rest : Context) (closing : Token)
  | firstArgument (function opening : Token) (rest : Context) (separator : Token) (second : Expr)
      (closing : Token)
  | secondArgument (function opening : Token) (first : Expr) (separator : Token) (rest : Context)
      (closing : Token)
  | operand (operator : Token) (rest : Context)
  | inner (opening : Token) (rest : Context) (closing : Token)
  | leftOperand (rest : Context) (operator : Token) (right : Expr)
  | rightOperand (left : Expr) (operator : Token) (rest : Context)

namespace Context

/-- The tree with `part` for what was left out. -/
def fill : Context → Expr → Expr
  | hole, part => part
  | argument function opening rest closing, part =>
    .call function opening (rest.fill part) closing
  | firstArgument function opening rest separator second closing, part =>
    .call2 function opening (rest.fill part) separator second closing
  | secondArgument function opening first separator rest closing, part =>
    .call2 function opening first separator (rest.fill part) closing
  | operand operator rest, part => .unary operator (rest.fill part)
  | inner opening rest closing, part => .paren opening (rest.fill part) closing
  | leftOperand rest operator right, part => .binary (rest.fill part) operator right
  | rightOperand left operator rest, part => .binary left operator (rest.fill part)

/-- The tokens before the part. -/
def before : Context → List Token
  | hole => []
  | argument function opening rest _ => function :: opening :: rest.before
  | firstArgument function opening rest _ _ _ => function :: opening :: rest.before
  | secondArgument function opening first separator rest _ =>
    function :: opening :: first.tokens ++ separator :: rest.before
  | operand operator rest => operator :: rest.before
  | inner opening rest _ => opening :: rest.before
  | leftOperand rest _ _ => rest.before
  | rightOperand left operator rest => left.tokens ++ operator :: rest.before

/-- The tokens behind the part. -/
def behind : Context → List Token
  | hole => []
  | argument _ _ rest closing => rest.behind ++ [closing]
  | firstArgument _ _ rest separator second closing =>
    rest.behind ++ separator :: second.tokens ++ [closing]
  | secondArgument _ _ _ _ rest closing => rest.behind ++ [closing]
  | operand _ rest => rest.behind
  | inner _ rest closing => rest.behind ++ [closing]
  | leftOperand rest operator right => rest.behind ++ operator :: right.tokens
  | rightOperand _ _ rest => rest.behind

variable {part group : Expr}

theorem tokens_fill (c : Context) (part : Expr) :
    (c.fill part).tokens = c.before ++ part.tokens ++ c.behind := by
  induction c <;> simp_all [fill, before, behind, tokens]

/-- **The trees below a tree are what its holes are filled with.** -/
theorem exists_fill_eq_of_mem_nodes {e : Expr} (h : part ∈ e.nodes) :
    ∃ c : Context, c.fill part = e := by
  induction e with
  | value t =>
    obtain rfl := List.mem_singleton.1 h
    exact ⟨hole, rfl⟩
  | call f opening argument closing ih =>
    rcases List.mem_cons.1 h with rfl | h
    · exact ⟨hole, rfl⟩
    · obtain ⟨c, rfl⟩ := ih h
      exact ⟨argument f opening c closing, rfl⟩
  | call2 f opening first separator second closing ihFirst ihSecond =>
    rcases List.mem_cons.1 h with rfl | h
    · exact ⟨hole, rfl⟩
    · rcases List.mem_append.1 h with h | h
      · obtain ⟨c, rfl⟩ := ihFirst h
        exact ⟨firstArgument f opening c separator second closing, rfl⟩
      · obtain ⟨c, rfl⟩ := ihSecond h
        exact ⟨secondArgument f opening first separator c closing, rfl⟩
  | unary op operand ih =>
    rcases List.mem_cons.1 h with rfl | h
    · exact ⟨hole, rfl⟩
    · obtain ⟨c, rfl⟩ := ih h
      exact ⟨operand op c, rfl⟩
  | paren opening inner closing ih =>
    rcases List.mem_cons.1 h with rfl | h
    · exact ⟨hole, rfl⟩
    · obtain ⟨c, rfl⟩ := ih h
      exact ⟨inner opening c closing, rfl⟩
  | binary left op right ihLeft ihRight =>
    rcases List.mem_cons.1 h with rfl | h
    · exact ⟨hole, rfl⟩
    · rcases List.mem_append.1 h with h | h
      · obtain ⟨c, rfl⟩ := ihLeft h
        exact ⟨leftOperand c op right, rfl⟩
      · obtain ⟨c, rfl⟩ := ihRight h
        exact ⟨rightOperand left op c, rfl⟩

/-! ### A group for the part -/

/-- The grammar asks of a part no more than that it is an expression. -/
theorem grammatical_fill {c : Context} (h : (c.fill part).Grammatical) :
    part.Grammatical ∧ ∀ other : Expr, other.Grammatical → (c.fill other).Grammatical := by
  induction c with
  | hole => exact ⟨h, fun _ hother => hother⟩
  | argument f opening rest closing ih =>
    obtain ⟨hf, hopen, hclose, hargument⟩ := h
    obtain ⟨hpart, hfill⟩ := ih hargument
    exact ⟨hpart, fun other hother => ⟨hf, hopen, hclose, hfill other hother⟩⟩
  | firstArgument f opening rest separator second closing ih =>
    obtain ⟨hf, hopen, hsep, hclose, hfirst, hsecond⟩ := h
    obtain ⟨hpart, hfill⟩ := ih hfirst
    exact ⟨hpart, fun other hother => ⟨hf, hopen, hsep, hclose, hfill other hother, hsecond⟩⟩
  | secondArgument f opening first separator rest closing ih =>
    obtain ⟨hf, hopen, hsep, hclose, hfirst, hsecond⟩ := h
    obtain ⟨hpart, hfill⟩ := ih hsecond
    exact ⟨hpart, fun other hother => ⟨hf, hopen, hsep, hclose, hfirst, hfill other hother⟩⟩
  | operand op rest ih =>
    obtain ⟨hop, hoperand⟩ := h
    obtain ⟨hpart, hfill⟩ := ih hoperand
    exact ⟨hpart, fun other hother => ⟨hop, hfill other hother⟩⟩
  | inner opening rest closing ih =>
    obtain ⟨hopen, hclose, hinner⟩ := h
    obtain ⟨hpart, hfill⟩ := ih hinner
    exact ⟨hpart, fun other hother => ⟨hopen, hclose, hfill other hother⟩⟩
  | leftOperand rest op right ih =>
    obtain ⟨hop, hleft, hright⟩ := h
    obtain ⟨hpart, hfill⟩ := ih hleft
    exact ⟨hpart, fun other hother => ⟨hop, hfill other hother, hright⟩⟩
  | rightOperand left op rest ih =>
    obtain ⟨hop, hleft, hright⟩ := h
    obtain ⟨hpart, hfill⟩ := ih hright
    exact ⟨hpart, fun other hother => ⟨hop, hleft, hfill other hother⟩⟩

/-- A group can only take operators away from those outside brackets. -/
theorem outerOperators_fill_subset (hgroup : group.Closed) (c : Context) :
    (c.fill group).outerOperators ⊆ (c.fill part).outerOperators := by
  induction c with
  | hole =>
    show group.outerOperators ⊆ part.outerOperators
    rw [hgroup.outerOperators]
    exact List.nil_subset _
  | argument | firstArgument | secondArgument | inner => exact List.Subset.refl _
  | operand op rest ih => exact ih
  | leftOperand rest op right ih =>
    refine List.append_subset.2 ⟨List.subset_append_of_subset_left _ ih, ?_⟩
    exact List.subset_append_right _ _
  | rightOperand left op rest ih =>
    refine List.append_subset.2 ⟨List.subset_append_left _ _, ?_⟩
    exact List.subset_append_of_subset_right _ (List.cons_subset_cons op ih)

/-- It leads with a minus only where there was one. -/
theorem leadsWithUnary_of_fill (hgroup : group.Closed) {c : Context}
    (h : (c.fill group).LeadsWithUnary) : (c.fill part).LeadsWithUnary := by
  induction c with
  | hole => exact absurd h hgroup.leading
  | argument | firstArgument | secondArgument | operand | inner | rightOperand => exact h
  | leftOperand rest op right ih => exact ih h

/-- **Around a group operators bind as they did around the part.** -/
theorem canonical_fill (hgroup : group.Closed) {c : Context} (h : (c.fill part).Canonical) :
    part.Canonical ∧ (group.Canonical → (c.fill group).Canonical) := by
  induction c with
  | hole => exact ⟨h, id⟩
  | argument f opening rest closing ih => exact ih h
  | firstArgument f opening rest separator second closing ih =>
    obtain ⟨hfirst, hsecond⟩ := h
    obtain ⟨hpart, hfill⟩ := ih hfirst
    exact ⟨hpart, fun hcanon => ⟨hfill hcanon, hsecond⟩⟩
  | secondArgument f opening first separator rest closing ih =>
    obtain ⟨hfirst, hsecond⟩ := h
    obtain ⟨hpart, hfill⟩ := ih hsecond
    exact ⟨hpart, fun hcanon => ⟨hfirst, hfill hcanon⟩⟩
  | operand op rest ih => exact ih h
  | inner opening rest closing ih => exact ih h
  | leftOperand rest op right ih =>
    obtain ⟨hlead, hyieldLeft, hyieldRight, hleft, hright⟩ := h
    obtain ⟨hpart, hfill⟩ := ih hleft
    refine ⟨hpart, fun hcanon => ⟨?_, ?_, hyieldRight, hfill hcanon, hright⟩⟩
    · exact mt (leadsWithUnary_of_fill hgroup) hlead
    · exact fun t ht => hyieldLeft t (outerOperators_fill_subset hgroup rest ht)
  | rightOperand left op rest ih =>
    obtain ⟨hlead, hyieldLeft, hyieldRight, hleft, hright⟩ := h
    obtain ⟨hpart, hfill⟩ := ih hright
    refine ⟨hpart, fun hcanon => ⟨hlead, hyieldLeft, ?_, hleft, hfill hcanon⟩⟩
    exact fun t ht => hyieldRight t (outerOperators_fill_subset hgroup rest ht)

/-- Parts that mean the same mean the same everywhere. -/
theorem ofExpr_fill_congr {other : Expr}
    (h : Multifunction.ofExpr part = Multifunction.ofExpr other) (c : Context) :
    Multifunction.ofExpr (c.fill part) = Multifunction.ofExpr (c.fill other) := by
  induction c <;> simp_all [fill, Multifunction.ofExpr]

end Context

end Expr

/-- **Parentheses around any part of a formula become a group around that part of its tree, and
the function stays the same.** -/
theorem parse_parenthesized {ts : List Token} {e : Expr} {f : Multifunction}
    {opening closing : Token} (he : parse ts = .ok e) (hf : Multifunction.ofExpr e = .ok f)
    (hopen : opening.kind = .leftParen) (hclose : closing.kind = .rightParen) :
    (∀ part ∈ e.nodes, ∃ c : Expr.Context, c.fill part = e) ∧
      ∀ (c : Expr.Context) (part : Expr), c.fill part = e →
        ts = c.before ++ part.tokens ++ c.behind ∧
        parse (c.before ++ (opening :: part.tokens ++ [closing]) ++ c.behind) =
          .ok (c.fill (.paren opening part closing)) ∧
        Multifunction.ofExpr (c.fill (.paren opening part closing)) = .ok f := by
  obtain ⟨hgram, hcanon, rfl⟩ := parse_eq_ok_iff.1 he
  refine ⟨fun part => Expr.Context.exists_fill_eq_of_mem_nodes, fun c part hfill => ?_⟩
  subst hfill
  obtain ⟨hpart, hgramFill⟩ := Expr.Context.grammatical_fill hgram
  have hclosed : (Expr.paren opening part closing).Closed := Expr.closed_paren
  obtain ⟨hcanonPart, hcanonFill⟩ := Expr.Context.canonical_fill hclosed hcanon
  refine ⟨c.tokens_fill part, parse_eq_ok_iff.2 ⟨?_, hcanonFill hcanonPart, ?_⟩, ?_⟩
  · exact hgramFill _ ⟨hopen, hclose, hpart⟩
  · exact c.tokens_fill (.paren opening part closing)
  · have hgroup : Multifunction.ofExpr (.paren opening part closing) =
        Multifunction.ofExpr part := rfl
    rw [Expr.Context.ofExpr_fill_congr hgroup, hf]

/-- In `z^-z-i` the minus that negates gets parentheses, though it stands behind a tighter operator
and before a looser one. -/
theorem parse_parenthesized_operand :
    let z : Token := ⟨.letter, "z", 0⟩
    let power : Token := ⟨.binary, "^", 0⟩
    let minus : Token := ⟨.unary, "-", 0⟩
    let difference : Token := ⟨.binary, "-", 0⟩
    let i : Token := ⟨.constant, "i", 0⟩
    let opening : Token := ⟨.leftParen, "(", 0⟩
    let closing : Token := ⟨.rightParen, ")", 0⟩
    let operand := Expr.unary minus (.value z)
    let c := Expr.Context.leftOperand (.rightOperand (.value z) power .hole) difference (.value i)
    let f := Multifunction.binary .sub (.binary .pow .var (.negate .var)) (.constant .i)
    parse [z, power, minus, z, difference, i] = .ok (c.fill operand) ∧
      Multifunction.ofExpr (c.fill operand) = .ok f ∧
      parse [z, power, opening, minus, z, closing, difference, i] =
        .ok (c.fill (.paren opening operand closing)) ∧
      Multifunction.ofExpr (c.fill (.paren opening operand closing)) = .ok f := by
  intro z power minus difference i opening closing operand c f
  have he : parse [z, power, minus, z, difference, i] = .ok (c.fill operand) := by cbv
  have hf : Multifunction.ofExpr (c.fill operand) = .ok f := by cbv
  obtain ⟨-, hparts⟩ := @parse_parenthesized _ _ _ opening closing he hf rfl rfl
  obtain ⟨-, hparse, hfunction⟩ := hparts c operand rfl
  exact ⟨he, hf, hparse, hfunction⟩

end Branchwise
