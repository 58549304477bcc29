/-
How many values a formula has.

Operations multiply counts.  Where two lists are paired the lengths multiply, and a function of as
many values at every number multiplies the length of the list of its arguments.  So the count can
be read off the tree and the window, without a point.  Two functions do not keep to it: the area
cotangent leaves out what has no inverse, and a root has as many values as its degree, which is a
value itself.  Both stay below a bound, and the bound goes through the same products.

`Counts` carries the bound and the exact count side by side, so that there is one induction for
both.
-/
import Mathlib.Algebra.Group.Action.Defs
import Mathlib.Algebra.Order.BigOperators.Group.List
import Mathlib.Algebra.Order.Ring.Nat
import Mathlib.Tactic.Ring
import Branchwise.Multifunction.Basic

namespace Branchwise

/-! ### Lists of which the length is known -/

/-- At most `n` values, and no fewer if the list is `complete`. -/
structure Counts {α : Type} (complete : Prop) (n : Nat) (values : List α) : Prop where
  length_le : values.length ≤ n
  length_eq : complete → values.length = n

namespace Counts

variable {α β γ : Type} {p : Prop} {m n : Nat} {values : List α}

theorem of_length_eq (h : values.length = n) : Counts p n values :=
  ⟨Nat.le_of_eq h, fun _ => h⟩

theorem weaken {q : Prop} (h : Counts q n values) (hpq : p → q) : Counts p n values :=
  ⟨h.length_le, fun hp => h.length_eq (hpq hp)⟩

theorem map (h : Counts p n values) (f : α → β) : Counts p n (values.map f) := by
  refine ⟨?_, ?_⟩
  · rw [List.length_map]
    exact h.length_le
  · intro hp
    rw [List.length_map]
    exact h.length_eq hp

/-- What is left out of a list leaves the bound. -/
theorem filter (h : Counts p n values) (keep : α → Bool) :
    Counts False n (values.filter keep) :=
  ⟨Nat.le_trans (List.length_filter_le keep values) h.length_le, False.elim⟩

/-- Values that come from values multiply the counts. -/
theorem flatMap {next : α → List β} (h : Counts p m values)
    (hnext : ∀ v, Counts p n (next v)) : Counts p (m * n) (values.flatMap next) := by
  refine ⟨?_, ?_⟩
  · rw [List.length_flatMap]
    have hsum : (values.map fun v => (next v).length).sum ≤ values.length * n := by
      have hle := List.sum_le_card_nsmul (values.map fun v => (next v).length) n
        (List.forall_mem_map.2 fun v _ => (hnext v).length_le)
      rwa [List.length_map, smul_eq_mul] at hle
    exact Nat.le_trans hsum (Nat.mul_le_mul_right n h.length_le)
  · intro hp
    rw [List.length_flatMap]
    have hsum := List.sum_eq_card_nsmul (values.map fun v => (next v).length) n
      (List.forall_mem_map.2 fun v _ => (hnext v).length_eq hp)
    rw [hsum, List.length_map, smul_eq_mul, h.length_eq hp]

theorem cross {others : List β} (h : Counts p m values) (h' : Counts p n others)
    (combine : α → β → γ) : Counts p (m * n) (cross combine values others) :=
  h.flatMap fun a => h'.map (combine a)

end Counts

/-! ### Values of functions -/

/-- How many branches a window has. -/
def branchCount (w : Nat) : Nat :=
  2 * w + 1

theorem length_branchIndices (w : Nat) : (branchIndices w).length = branchCount w := by
  rw [branchIndices, List.length_map, List.length_range, branchCount]

theorem length_lnBranches (z : ComplexFloat) (w : Nat) :
    (z.lnBranches w).length = branchCount w := by
  rw [ComplexFloat.lnBranches, List.length_map, length_branchIndices]

/-- A degree has its absolute value as the number of its roots, or none if that is too many. -/
theorem length_roots (z : ComplexFloat) (degree : Int) :
    (z.roots degree).length = if degree.natAbs ≤ maxRootDegree then degree.natAbs else 0 := by
  unfold ComplexFloat.roots
  by_cases hlimit : degree.natAbs ≤ maxRootDegree
  · rw [if_pos hlimit]
    by_cases hzero : degree = 0
    · subst hzero
      rfl
    · rw [if_neg (by omega)]
      simp
  · rw [if_neg hlimit, if_pos (Or.inr (by omega))]
    rfl

theorem length_roots_le (z : ComplexFloat) (degree : Int) :
    (z.roots degree).length ≤ maxRootDegree := by
  rw [length_roots]
  by_cases hlimit : degree.natAbs ≤ maxRootDegree
  · rw [if_pos hlimit]
    exact hlimit
  · rw [if_neg hlimit]
    exact Nat.zero_le _

/-- How many values a function has at one number; the area cotangent may have fewer. -/
def Function.valueCount (w : Nat) : Function → Nat
  | .ln | .asin | .acos | .arsh | .arch => branchCount w
  | .atg | .actg | .arth | .arcth => branchCount w ^ 2
  | .sqrt => 2
  | _ => 1

section

variable (z : ComplexFloat) (w : Nat)

theorem counts_lnBranches {p : Prop} : Counts p (branchCount w) (z.lnBranches w) :=
  .of_length_eq (length_lnBranches z w)

theorem counts_cross_lnBranches {p : Prop} {α : Type} (z' : ComplexFloat)
    (combine : ComplexFloat → ComplexFloat → α) :
    Counts p (branchCount w ^ 2) (cross combine (z.lnBranches w) (z'.lnBranches w)) := by
  rw [Nat.pow_two]
  exact (counts_lnBranches z w).cross (counts_lnBranches z' w) combine

/-- **Only the area cotangent has fewer values at some numbers than at others.** -/
theorem Function.counts_values (f : Function) :
    Counts (f ≠ .arcth) (f.valueCount w) (f.values z w) := by
  cases f with
  | ln | asin | acos | arsh | arch => exact (counts_lnBranches _ w).map _
  | atg | actg | arth => exact counts_cross_lnBranches _ w _ _
  | arcth =>
    have hpairs : Counts True (branchCount w ^ 2) _ :=
      counts_cross_lnBranches (arthLeft z.inverse) w (arthRight z.inverse) arthCombine
    have hkept := (hpairs.filter (· != ComplexFloat.zero)).map ComplexFloat.inverse
    exact hkept.weaken fun h => h rfl
  | sqrt => exact .of_length_eq (length_roots z 2)
  | _ => exact .of_length_eq rfl

end

/-! ### Values of formulas -/

namespace Multifunction

/-- The product of the counts of all operations.  It counts each logarithm in full and a root with
the highest degree there is. -/
def valueCount (w : Nat) : Multifunction → Nat
  | constant _ | var => 1
  | negate operand => operand.valueCount w
  | binary _ left right => left.valueCount w * right.valueCount w
  | call function argument => argument.valueCount w * function.valueCount w
  | call2 .log first second => branchCount w ^ 2 * (first.valueCount w * second.valueCount w)
  | call2 .root first second => first.valueCount w * second.valueCount w * maxRootDegree

/-- Neither the area cotangent nor a root occurs. -/
def HasFixedCount : Multifunction → Prop
  | constant _ | var => True
  | negate operand => operand.HasFixedCount
  | binary _ left right => left.HasFixedCount ∧ right.HasFixedCount
  | call function argument => argument.HasFixedCount ∧ function ≠ .arcth
  | call2 function first second =>
    first.HasFixedCount ∧ second.HasFixedCount ∧ function ≠ .root

/-- One case for each node: its values are as many as its operands and its function make. -/
theorem counts_evaluate (f : Multifunction) (z : ComplexFloat) (w : Nat) :
    Counts f.HasFixedCount (f.valueCount w) (f.evaluate z w) := by
  induction f with
  | constant value => exact .of_length_eq rfl
  | var => exact .of_length_eq rfl
  | negate operand ih => exact ih.map _
  | binary operator left right ihLeft ihRight =>
    exact (ihLeft.weaken And.left).cross (ihRight.weaken And.right) operator.apply
  | call function argument ih =>
    exact (ih.weaken And.left).flatMap fun v => (function.counts_values v w).weaken And.right
  | call2 function first second ihFirst ihSecond =>
    cases function with
    | log =>
      have hfirst := ihFirst.flatMap fun v => counts_lnBranches v w
      have hsecond := ihSecond.flatMap fun v => counts_lnBranches v w
      have hvalues : Counts (call2 .log first second).HasFixedCount _ _ :=
        (hfirst.weaken And.left).cross (hsecond.weaken fun h => h.2.1) (· / ·)
      have hcount : (call2 .log first second).valueCount w =
          first.valueCount w * branchCount w * (second.valueCount w * branchCount w) := by
        rw [valueCount]
        ring
      rw [hcount]
      exact hvalues
    | root =>
      -- how many roots there are hangs on the second operand's values, so only the bound is left
      have hroots (x d : ComplexFloat) :
          Counts False maxRootDegree (x.roots (Binary64.toBoundedInt d.re)) :=
        ⟨length_roots_le x _, False.elim⟩
      have hvalues := (ihFirst.weaken False.elim).flatMap fun x =>
        (ihSecond.weaken False.elim).flatMap fun d => hroots x d
      rw [valueCount, Nat.mul_assoc]
      exact hvalues.weaken fun h => h.2.2 rfl

/-- **How many values a formula has is the product of the counts of its operations, whatever the
point; with an area cotangent or a root in it, it has no more.** -/
theorem length_evaluate (f : Multifunction) (z : ComplexFloat) (w : Nat) :
    (f.HasFixedCount → (f.evaluate z w).length = f.valueCount w) ∧
      (f.evaluate z w).length ≤ f.valueCount w :=
  ⟨(f.counts_evaluate z w).length_eq, (f.counts_evaluate z w).length_le⟩

/-- Two square roots of three logarithms and nine arc tangents, nine times for a logarithm to a
base; and a degree that is no number, which has no root but the bound of all degrees. -/
theorem length_evaluate_log :
    let f := call2 .log (call .sqrt (call .ln var)) (call .atg var)
    let g := call2 .root (call .arcth var) (constant (.ofReal Binary64.nan))
    f.HasFixedCount ∧ (∀ z, (f.evaluate z 1).length = 486) ∧
      (∀ z, (g.evaluate z 1).length ≤ 9 * 1 * 2 ^ 20) := by
  intro f g
  have hf : f.HasFixedCount := ⟨⟨⟨trivial, nofun⟩, nofun⟩, ⟨trivial, nofun⟩, nofun⟩
  refine ⟨hf, ?_, ?_⟩
  · intro z
    have hcount := (length_evaluate f z 1).1 hf
    rw [hcount]
    rfl
  · intro z
    exact (length_evaluate g z 1).2

end Multifunction

end Branchwise
