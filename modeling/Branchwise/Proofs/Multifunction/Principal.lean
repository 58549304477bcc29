/-
Where the principal value stands.

In the narrowest window every logarithm is on its principal branch, so a formula of logarithms alone
has one value.  A wider window puts as many branches before the principal one as behind it, and that
stays so for all that is made of them.  Where the values of a list are expanded, those before the
middle and those behind it are equally many and expand to equally many; where two lists are paired,
the middle of the second is met at the middle of the first.

Both steps need that a function has the same number of values at every number.  An area cotangent
has not, and neither has a root whose degree is a value; a square root has two values and so no
middle.  All else is `OnlyLogarithms`.
-/
import Mathlib.Algebra.Ring.Parity
import Branchwise.Proofs.Branches.Window
import Branchwise.Proofs.Multifunction.Count

namespace Branchwise

/-! ### Lists around one value -/

/-- The narrow list has a single value, and in the wide list as many stand before that value as
behind it. -/
def Centred {α : Type} (narrow wide : List α) : Prop :=
  ∃ before v after, narrow = [v] ∧ wide = before ++ v :: after ∧ before.length = after.length

namespace Centred

variable {α β γ : Type} {narrow wide : List α}

theorem singleton (v : α) : Centred [v] [v] :=
  ⟨[], v, [], rfl, rfl, rfl⟩

/-- One more value on either side leaves the middle where it is. -/
theorem surround (h : Centred narrow wide) (first last : α) :
    Centred narrow (first :: (wide ++ [last])) := by
  obtain ⟨before, v, after, hnarrow, hwide, hlength⟩ := h
  refine ⟨first :: before, v, after ++ [last], hnarrow, ?_, ?_⟩
  · rw [hwide]
    simp
  · simp [hlength]

theorem map (h : Centred narrow wide) (f : α → β) : Centred (narrow.map f) (wide.map f) := by
  obtain ⟨before, v, after, hnarrow, hwide, hlength⟩ := h
  refine ⟨before.map f, f v, after.map f, ?_, ?_, ?_⟩
  · rw [hnarrow]
    rfl
  · rw [hwide]
    simp
  · rw [List.length_map, List.length_map, hlength]

/-- **What expands around a middle, everywhere to equally many values, has the middle's middle.** -/
theorem flatMap {next next' : α → List β} {n : Nat} (h : Centred narrow wide)
    (hnext : ∀ v, Centred (next v) (next' v)) (hcount : ∀ v, (next' v).length = n) :
    Centred (narrow.flatMap next) (wide.flatMap next') := by
  obtain ⟨before, v, after, hnarrow, hwide, hlength⟩ := h
  obtain ⟨inner, u, inner', hu, hinner, hsame⟩ := hnext v
  have hexpand (values : List α) : (values.flatMap next').length = values.length * n := by
    have hcounts : Counts True (values.length * n) (values.flatMap next') :=
      (Counts.of_length_eq rfl).flatMap fun v => .of_length_eq (hcount v)
    exact hcounts.length_eq trivial
  refine ⟨before.flatMap next' ++ inner, u, inner' ++ after.flatMap next', ?_, ?_, ?_⟩
  · rw [hnarrow, List.flatMap_singleton, hu]
  · rw [hwide, List.flatMap_append, List.flatMap_cons, hinner]
    simp
  · rw [List.length_append, List.length_append, hexpand, hexpand, hlength, hsame, Nat.add_comm]

theorem cross {narrow' wide' : List β} (h : Centred narrow wide) (h' : Centred narrow' wide')
    (combine : α → β → γ) : Centred (cross combine narrow narrow') (cross combine wide wide') :=
  h.flatMap (fun a => h'.map (combine a)) fun _ => List.length_map _

/-- The middle of a list by its index. -/
theorem exists_getElem? (h : Centred narrow wide) :
    ∃ v, narrow = [v] ∧ Odd wide.length ∧ wide[(wide.length - 1) / 2]? = some v := by
  obtain ⟨before, v, after, hnarrow, hwide, hlength⟩ := h
  have hcount : wide.length = 2 * before.length + 1 := by
    rw [hwide, List.length_append, List.length_cons, ← hlength]
    omega
  have hmiddle : (wide.length - 1) / 2 = before.length := by omega
  refine ⟨v, hnarrow, ⟨before.length, hcount⟩, ?_⟩
  rw [hmiddle, hwide, List.getElem?_append_right (Nat.le_refl _), Nat.sub_self]
  rfl

end Centred

/-! ### Values of functions -/

theorem centred_branchIndices (w : Nat) : Centred (branchIndices 0) (branchIndices w) := by
  induction w with
  | zero => exact .singleton 0
  | succ w ih =>
    rw [branchIndices_succ]
    exact ih.surround _ _

theorem centred_lnBranches (z : ComplexFloat) (w : Nat) :
    Centred (z.lnBranches 0) (z.lnBranches w) :=
  (centred_branchIndices w).map z.ln.onBranch

namespace Function

theorem Scheme.centred_logarithm (inner outer : ComplexFloat → ComplexFloat) (z : ComplexFloat)
    (w : Nat) :
    Centred ((Scheme.logarithm inner outer).values z 0) ((Scheme.logarithm inner outer).values z w) :=
  (centred_lnBranches (inner z) w).map outer

theorem Scheme.centred_logarithms (left right : ComplexFloat → ComplexFloat)
    (combine : ComplexFloat → ComplexFloat → ComplexFloat) (z : ComplexFloat) (w : Nat) :
    Centred ((Scheme.logarithms left right combine).values z 0)
      ((Scheme.logarithms left right combine).values z w) :=
  (centred_lnBranches (left z) w).cross (centred_lnBranches (right z) w) combine

/-- Single values and logarithms, of which there may be two. -/
theorem centred_values {f : Function} (hsqrt : f ≠ .sqrt) (harcth : f ≠ .arcth) (z : ComplexFloat)
    (w : Nat) : Centred (f.values z 0) (f.values z w) := by
  cases f with
  | ln | asin | acos | arsh | arch => exact Scheme.centred_logarithm _ _ z w
  | atg | actg | arth => exact Scheme.centred_logarithms _ _ _ z w
  | sqrt => exact absurd rfl hsqrt
  | arcth => exact absurd rfl harcth
  | _ => exact .singleton _

end Function

/-! ### Values of formulas -/

namespace Multifunction

/-- There is no root and no area cotangent, so that all branches are branches of logarithms and
none is left out. -/
def OnlyLogarithms : Multifunction → Prop
  | constant _ | var => True
  | negate operand => operand.OnlyLogarithms
  | binary _ left right => left.OnlyLogarithms ∧ right.OnlyLogarithms
  | call function argument => argument.OnlyLogarithms ∧ function ≠ .sqrt ∧ function ≠ .arcth
  | call2 function first second =>
    first.OnlyLogarithms ∧ second.OnlyLogarithms ∧ function ≠ .root

/-- One case for each node: what is made of lists with a middle has a middle. -/
theorem centred_evaluate {f : Multifunction} (hf : f.OnlyLogarithms) (z : ComplexFloat) (w : Nat) :
    Centred (f.evaluate z 0) (f.evaluate z w) := by
  induction f with
  | constant value => exact .singleton value
  | var => exact .singleton z
  | negate operand ih => exact (ih hf).map _
  | binary operator left right ihLeft ihRight =>
    exact (ihLeft hf.1).cross (ihRight hf.2) operator.apply
  | call function argument ih =>
    obtain ⟨hargument, hsqrt, harcth⟩ := hf
    have hcount (v : ComplexFloat) : (function.values v w).length = function.valueCount w :=
      (function.counts_values v w).length_eq harcth
    exact (ih hargument).flatMap (fun v => Function.centred_values hsqrt harcth v w) hcount
  | call2 function first second ihFirst ihSecond =>
    obtain ⟨hfirst, hsecond, hroot⟩ := hf
    cases function with
    | log =>
      have hlogs {narrow wide : List ComplexFloat} (h : Centred narrow wide) :
          Centred (narrow.flatMap (·.lnBranches 0)) (wide.flatMap (·.lnBranches w)) :=
        h.flatMap (fun v => centred_lnBranches v w) fun v => length_lnBranches v w
      exact (hlogs (ihFirst hfirst)).cross (hlogs (ihSecond hsecond)) (· / ·)
    | root => exact absurd rfl hroot

/-- **The principal value is the middle one of the values in any window.** -/
theorem evaluate_middle {f : Multifunction} (hf : f.OnlyLogarithms) (z : ComplexFloat) (w : Nat) :
    ∃ v, f.evaluate z 0 = [v] ∧ Odd (f.evaluate z w).length ∧
      (f.evaluate z w)[((f.evaluate z w).length - 1) / 2]? = some v :=
  (centred_evaluate hf z w).exists_getElem?

/-- Nine arc tangents for each of three logarithms and a product with three arc cosines, all of them
expanded once more by the logarithm to a base. -/
theorem evaluate_middle_log :
    let f := call2 .log (call .atg (call .ln var)) (binary .mul var (call .acos var))
    let z : ComplexFloat := ⟨2, -1⟩
    f.OnlyLogarithms ∧ ∃ v, f.evaluate z 0 = [v] ∧ Odd (f.evaluate z 1).length ∧
      (f.evaluate z 1)[((f.evaluate z 1).length - 1) / 2]? = some v := by
  intro f z
  have hf : f.OnlyLogarithms :=
    ⟨⟨⟨trivial, nofun, nofun⟩, nofun, nofun⟩, ⟨trivial, trivial, nofun, nofun⟩, nofun⟩
  exact ⟨hf, evaluate_middle hf z 1⟩

end Multifunction

end Branchwise
