/-
A function of the values of a function.

To replace the variable by a function is to take the values of that function one after the other and
to evaluate at each.  This holds where the variable occurs once: at two occurrences the branches
would be picked independently, while a point is the same number at both.  The order of the values
may change, for the operand on the left varies slowest wherever the variable stands; no value is
lost, none is added and none is repeated.

What counts of an operation of two operands is that its values are gathered from all pairs of
operand values (`PairsUp`).  Logarithm and root come to this as well, though the one expands either
operand before they are paired and the other has as many values as the second operand says.
-/
import Branchwise.Proofs.Multifunction.Substitution

namespace Branchwise

/-! ### Values gathered from pairs -/

section

variable {α β γ : Type}

/-- It does not matter which of two operands varies slowest. -/
theorem flatMap_comm_perm (xs : List α) (ys : List β) (each : α → β → List γ) :
    (xs.flatMap fun x => ys.flatMap fun y => each x y).Perm
      (ys.flatMap fun y => xs.flatMap fun x => each x y) := by
  have hbind := Multiset.bind_bind (xs : Multiset α) (ys : Multiset β)
    (f := fun x y => (each x y : Multiset γ))
  simp only [Multiset.coe_bind] at hbind
  exact Multiset.coe_eq_coe.1 hbind

/-- The values that an operation gives are those of all pairs of operands, in some order. -/
def PairsUp (operation : List α → List β → List γ) : Prop :=
  ∃ each : α → β → List γ,
    ∀ xs ys, (operation xs ys).Perm (xs.flatMap fun x => ys.flatMap (each x))

namespace PairsUp

variable {operation : List α → List β → List γ}

/-- The left operand may be gathered from several lists before the operation or after it. -/
theorem gather_left {δ : Type} {vs : List δ} {part : δ → List α} {xs : List α}
    (h : PairsUp operation) (hxs : xs.Perm (vs.flatMap part)) (ys : List β) :
    (operation xs ys).Perm (vs.flatMap fun v => operation (part v) ys) := by
  obtain ⟨each, heach⟩ := h
  calc
    (operation xs ys).Perm (xs.flatMap fun x => ys.flatMap (each x)) := heach xs ys
    List.Perm _ ((vs.flatMap part).flatMap fun x => ys.flatMap (each x)) := hxs.flatMap_right _
    List.Perm _ (vs.flatMap fun v => (part v).flatMap fun x => ys.flatMap (each x)) := by
      rw [List.flatMap_assoc]
    List.Perm _ (vs.flatMap fun v => operation (part v) ys) :=
      List.Perm.flatMap_left vs fun v _ => (heach (part v) ys).symm

/-- So may the right operand. -/
theorem gather_right {δ : Type} {vs : List δ} {part : δ → List β} {ys : List β}
    (h : PairsUp operation) (xs : List α) (hys : ys.Perm (vs.flatMap part)) :
    (operation xs ys).Perm (vs.flatMap fun v => operation xs (part v)) := by
  obtain ⟨each, heach⟩ := h
  calc
    (operation xs ys).Perm (xs.flatMap fun x => ys.flatMap (each x)) := heach xs ys
    List.Perm _ (xs.flatMap fun x => (vs.flatMap part).flatMap (each x)) :=
      List.Perm.flatMap_left xs fun x _ => hys.flatMap_right _
    List.Perm _ (xs.flatMap fun x => vs.flatMap fun v => (part v).flatMap (each x)) := by
      simp only [List.flatMap_assoc, List.Perm.refl]
    List.Perm _ (vs.flatMap fun v => xs.flatMap fun x => (part v).flatMap (each x)) :=
      flatMap_comm_perm xs vs _
    List.Perm _ (vs.flatMap fun v => operation xs (part v)) :=
      List.Perm.flatMap_left vs fun v _ => (heach xs (part v)).symm

end PairsUp

theorem pairsUp_cross (combine : α → β → γ) : PairsUp (cross combine) := by
  refine ⟨fun a b => [combine a b], fun xs ys => ?_⟩
  simp only [cross, List.map_eq_flatMap, List.Perm.refl]

end

/-- Each pair of operands has the quotients of its logarithms, or the roots of its degree. -/
theorem Function2.pairsUp_values (f : Function2) (w : Nat) :
    PairsUp fun first second => f.values first second w := by
  cases f with
  | log =>
    refine ⟨fun x y => cross (· / ·) (x.lnBranches w) (y.lnBranches w), fun xs ys => ?_⟩
    simp only [values, cross, List.map_flatMap, List.flatMap_assoc]
    exact List.Perm.flatMap_left xs fun x _ => flatMap_comm_perm _ _ _
  | root => exact ⟨fun x d => x.roots (Binary64.toBoundedInt d.re), fun _ _ => List.Perm.refl _⟩

namespace Multifunction

/-! ### One occurrence -/

/-- How often the variable occurs. -/
def variableCount : Multifunction → Nat
  | constant _ => 0
  | var => 1
  | negate operand => operand.variableCount
  | binary _ left right => left.variableCount + right.variableCount
  | call _ argument => argument.variableCount
  | call2 _ first second => first.variableCount + second.variableCount

/-- Where the variable does not occur, nothing is replaced. -/
theorem substitute_of_variableCount_eq_zero {f : Multifunction} (h : f.variableCount = 0)
    (g : Multifunction) : f.substitute g = f := by
  induction f with
  | constant value => rfl
  | var => cases h
  | negate operand ih => rw [substitute, ih h]
  | binary operator left right ihLeft ihRight =>
    obtain ⟨hleft, hright⟩ := Nat.add_eq_zero_iff.1 h
    rw [substitute, ihLeft hleft, ihRight hright]
  | call function argument ih => rw [substitute, ih h]
  | call2 function first second ihFirst ihSecond =>
    obtain ⟨hfirst, hsecond⟩ := Nat.add_eq_zero_iff.1 h
    rw [substitute, ihFirst hfirst, ihSecond hsecond]

/-- Where the variable does not occur, the point does not matter. -/
theorem evaluate_of_variableCount_eq_zero {f : Multifunction} (h : f.variableCount = 0)
    (z z' : ComplexFloat) (w : Nat) : f.evaluate z w = f.evaluate z' w := by
  induction f with
  | constant value => rfl
  | var => cases h
  | negate operand ih => rw [evaluate, evaluate, ih h]
  | binary operator left right ihLeft ihRight =>
    obtain ⟨hleft, hright⟩ := Nat.add_eq_zero_iff.1 h
    rw [evaluate, evaluate, ihLeft hleft, ihRight hright]
  | call function argument ih => rw [evaluate, evaluate, ih h]
  | call2 function first second ihFirst ihSecond =>
    obtain ⟨hfirst, hsecond⟩ := Nat.add_eq_zero_iff.1 h
    rw [evaluate, evaluate, ihFirst hfirst, ihSecond hsecond]

/-! ### Composition -/

/-- The values of the composed function are those of `f` at each value of `g`, in some order. -/
def Composes (f g : Multifunction) (z : ComplexFloat) (w : Nat) : Prop :=
  ((f.substitute g).evaluate z w).Perm ((g.evaluate z w).flatMap fun v => f.evaluate v w)

variable {f g : Multifunction} {z : ComplexFloat} {w : Nat}

/-- The step for an operation of two operands: one of them has the variable, and the other is the
same at every point. -/
theorem perm_of_pairsUp {operation : List ComplexFloat → List ComplexFloat → List ComplexFloat}
    {left right : Multifunction} (hpairs : PairsUp operation)
    (hcount : left.variableCount + right.variableCount = 1)
    (hleft : left.variableCount = 1 → left.Composes g z w)
    (hright : right.variableCount = 1 → right.Composes g z w) :
    (operation ((left.substitute g).evaluate z w) ((right.substitute g).evaluate z w)).Perm
      ((g.evaluate z w).flatMap fun v => operation (left.evaluate v w) (right.evaluate v w)) := by
  rcases Nat.add_eq_one_iff.1 hcount with ⟨hnone, hone⟩ | ⟨hone, hnone⟩
  · rw [substitute_of_variableCount_eq_zero hnone]
    simp only [fun v => evaluate_of_variableCount_eq_zero hnone v z w]
    exact hpairs.gather_right _ (hright hone)
  · rw [substitute_of_variableCount_eq_zero hnone]
    simp only [fun v => evaluate_of_variableCount_eq_zero hnone v z w]
    exact hpairs.gather_left (hleft hone) _

/-- **With a function for its single variable, a function has the values that it has at each value
of that function.** -/
theorem evaluate_substitute_perm (hf : f.variableCount = 1) (g : Multifunction) (z : ComplexFloat)
    (w : Nat) :
    ((f.substitute g).evaluate z w).Perm
      ((g.evaluate z w).flatMap fun v => f.evaluate v w) := by
  induction f with
  | constant value => cases hf
  | var =>
    show (g.evaluate z w).Perm ((g.evaluate z w).flatMap fun v => [v])
    rw [List.flatMap_singleton']
  | negate operand ih =>
    have hvalues := (ih hf).map (-·)
    rw [List.map_flatMap] at hvalues
    exact hvalues
  | binary operator left right ihLeft ihRight =>
    exact perm_of_pairsUp (pairsUp_cross operator.apply) hf ihLeft ihRight
  | call function argument ih =>
    have hvalues := (ih hf).flatMap_right fun v => function.values v w
    rw [List.flatMap_assoc] at hvalues
    exact hvalues
  | call2 function first second ihFirst ihSecond =>
    exact perm_of_pairsUp (function.pairsUp_values w) hf ihFirst ihSecond

/-- The variable stands in the degree of a root, below an area cotangent, and behind a constant with
three logarithms; the function put there has values of its own. -/
theorem evaluate_substitute_perm_root :
    let three := constant (.ofReal 3)
    let f := call2 .root (call .ln three) (binary .add (call .ln three) (call .arcth var))
    let g := call2 .log var (call .sqrt var)
    let z : ComplexFloat := ⟨2, 1⟩
    f.variableCount = 1 ∧ ((f.substitute g).evaluate z 1).Perm
      ((g.evaluate z 1).flatMap fun v => f.evaluate v 1) := by
  intro three f g z
  have hf : f.variableCount = 1 := rfl
  exact ⟨hf, evaluate_substitute_perm hf g z 1⟩

end Multifunction

end Branchwise
