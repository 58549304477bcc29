/-
The branches of a window, and what a wider window adds.

The indices of a window are the integers from `-w` to `w` in ascending order, and the next wider
window puts one more at either end.  The value on a branch depends on the index of the branch and
not on the window around it.  So the list of logarithms of a number grows by insertions, and
pairing, mapping and filtering lists of values turns insertions into insertions.  Roots do not ask
for the window at all; their degree may be one of the values, but each degree keeps its roots.
-/
import Mathlib.Data.List.Flatten
import Branchwise.Multifunction.Basic

namespace Branchwise

/-! ### Branch indices -/

theorem mem_branchIndices_iff {k : Int} {w : Nat} :
    k ∈ branchIndices w ↔ -(w : Int) ≤ k ∧ k ≤ w := by
  rw [branchIndices, List.mem_map]
  refine ⟨?_, ?_⟩
  · intro h
    obtain ⟨n, hn, rfl⟩ := h
    have hlt := List.mem_range.1 hn
    omega
  · intro h
    exact ⟨(k + w).toNat, List.mem_range.2 (by omega), by omega⟩

theorem pairwise_branchIndices (w : Nat) : (branchIndices w).Pairwise (· < ·) := by
  rw [branchIndices, List.pairwise_map]
  exact List.pairwise_lt_range.imp fun h => by omega

/-- The next window has one more branch at either end. -/
theorem branchIndices_succ (w : Nat) :
    branchIndices (w + 1) = (-(w : Int) - 1) :: (branchIndices w ++ [(w : Int) + 1]) := by
  have hwidth : 2 * (w + 1) + 1 = 2 * w + 1 + 1 + 1 := by omega
  rw [branchIndices, branchIndices, hwidth, List.range_succ_eq_map, List.map_cons,
    List.map_map, List.range_succ, List.map_append]
  congr 1
  · omega
  · congr 1
    · exact List.map_congr_left fun n _ => by simp only [Function.comp_apply]; omega
    · simp only [List.map_cons, List.map_nil, Function.comp_apply]
      congr 1
      omega

theorem branchIndices_sublist {w w' : Nat} (h : w ≤ w') :
    List.Sublist (branchIndices w) (branchIndices w') := by
  induction h with
  | refl => exact List.Sublist.refl _
  | @step n _ ih =>
    have hnext : List.Sublist (branchIndices n) (branchIndices (n + 1)) := by
      rw [branchIndices_succ]
      exact (List.sublist_append_left _ _).cons _
    exact ih.trans hnext

/-! ### Values of functions -/

theorem lnBranches_sublist {w w' : Nat} (h : w ≤ w') (z : ComplexFloat) :
    List.Sublist (z.lnBranches w) (z.lnBranches w') :=
  (branchIndices_sublist h).map _

/-- Both what is expanded and what it expands to may get longer. -/
theorem flatMap_sublist_flatMap {α β : Type} {xs ys : List α} {next next' : α → List β}
    (h : List.Sublist xs ys) (hnext : ∀ x, List.Sublist (next x) (next' x)) :
    List.Sublist (xs.flatMap next) (ys.flatMap next') :=
  (List.Sublist.flatMap_right _ fun x _ => hnext x).trans (h.flatMap _)

theorem cross_sublist {α β γ : Type} {first first' : List α} {second second' : List β}
    (h : List.Sublist first first') (h' : List.Sublist second second')
    (combine : α → β → γ) :
    List.Sublist (cross combine first second) (cross combine first' second') :=
  flatMap_sublist_flatMap h fun a => h'.map (combine a)

namespace Function

/-- Each way of taking values keeps those of a narrower window. -/
theorem Scheme.values_sublist {w w' : Nat} (h : w ≤ w') (z : ComplexFloat) (scheme : Scheme) :
    List.Sublist (scheme.values z w) (scheme.values z w') := by
  cases scheme with
  | single value => exact List.Sublist.refl _
  | logarithm inner outer => exact (lnBranches_sublist h (inner z)).map outer
  | logarithms left right combine =>
    exact cross_sublist (lnBranches_sublist h (left z)) (lnBranches_sublist h (right z)) combine
  | inverseLogarithms left right combine =>
    have hpairs := cross_sublist (lnBranches_sublist h (left z)) (lnBranches_sublist h (right z))
      combine
    exact (hpairs.filter _).map _
  | roots degree => exact List.Sublist.refl _

theorem values_sublist {w w' : Nat} (h : w ≤ w') (f : Function) (z : ComplexFloat) :
    List.Sublist (f.values z w) (f.values z w') :=
  f.scheme.values_sublist h z

end Function

/-- A function of two arguments may get more of both and expand each of them further. -/
theorem Function2.values_sublist {w w' : Nat} (h : w ≤ w') (f : Function2)
    {first first' second second' : List ComplexFloat} (hfirst : List.Sublist first first')
    (hsecond : List.Sublist second second') :
    List.Sublist (f.values first second w) (f.values first' second' w') := by
  cases f with
  | log =>
    have hexpand {xs ys : List ComplexFloat} (hxs : List.Sublist xs ys) :
        List.Sublist (xs.flatMap (·.lnBranches w)) (ys.flatMap (·.lnBranches w')) :=
      flatMap_sublist_flatMap hxs fun z => lnBranches_sublist h z
    exact cross_sublist (hexpand hfirst) (hexpand hsecond) (· / ·)
  | root =>
    -- the branches of a root do not depend on the window, only on how many degrees there are
    exact flatMap_sublist_flatMap hfirst fun x => hsecond.flatMap _

namespace Multifunction

/-- **A wider window loses no value, changes none and keeps their order.** -/
theorem evaluate_sublist_of_le {w w' : Nat} (h : w ≤ w') (f : Multifunction) (z : ComplexFloat) :
    List.Sublist (f.evaluate z w) (f.evaluate z w') := by
  induction f with
  | constant value => exact List.Sublist.refl _
  | var => exact List.Sublist.refl _
  | negate operand ih => exact ih.map _
  | binary operator left right ihLeft ihRight =>
    exact cross_sublist ihLeft ihRight operator.apply
  | call function argument ih =>
    exact flatMap_sublist_flatMap ih fun v => function.values_sublist h v
  | call2 function first second ihFirst ihSecond =>
    exact function.values_sublist h ihFirst ihSecond

/-- The degree of the root and what the area cotangent leaves out both vary with the branch. -/
theorem evaluate_sublist_of_le_arcth_root :
    let f := binary .div (call .arcth (call .ln var)) (call2 .root (call .asin var) (call .ln var))
    let z : ComplexFloat := ⟨2, 0⟩
    1 ≤ 3 ∧ List.Sublist (f.evaluate z 1) (f.evaluate z 3) :=
  ⟨by decide, evaluate_sublist_of_le (by decide) _ _⟩

end Multifunction

end Branchwise
