/-
Functions that the language could do without.

A logarithm to a base is a quotient of natural logarithms, and a square root is a root of degree two.
That the numbers agree is one half of it.  The other is that the values come in the same order with
nothing left out, though each side takes a way of its own: one function of two arguments expands both
of its operands before it pairs them, where a quotient pairs the values of two calls; one call has two
values at each number, where a root runs through the degrees that its second operand gives.

So whatever a formula is made of, both functions can be written out in it (`spelledOut`), at any
depth, without a change to its values.
-/
import Mathlib.Control.Monad.Basic
import Branchwise.Formula

namespace Branchwise

/-! ### Values of single calls -/

/-- Nothing happens to a natural logarithm behind its branches. -/
theorem Function.values_ln (z : ComplexFloat) (w : Nat) :
    Function.ln.values z w = z.lnBranches w := by
  show (z.lnBranches w).map id = z.lnBranches w
  rw [List.map_id]

/-- The degree that the number two asks for. -/
theorem Binary64.toBoundedInt_two : toBoundedInt 2 = 2 := by
  decide

namespace Multifunction

variable {f g : Multifunction} {z : ComplexFloat} {w : Nat}

/-- The number two as a function. -/
def two : Multifunction :=
  constant (.ofReal 2)

theorem evaluate_call_ln :
    (call .ln f).evaluate z w = (f.evaluate z w).flatMap (·.lnBranches w) := by
  show (f.evaluate z w).flatMap (fun v => Function.ln.values v w) = _
  simp only [Function.values_ln]

/-- A degree with a single value is the same for all numbers that a root is taken of. -/
theorem evaluate_root_of_single {d : ComplexFloat} (hd : g.evaluate z w = [d]) :
    (call2 .root f g).evaluate z w =
      (f.evaluate z w).flatMap (·.roots (Binary64.toBoundedInt d.re)) := by
  show (f.evaluate z w).flatMap (fun x => (g.evaluate z w).flatMap _) = _
  simp only [hd, List.flatMap_singleton]

/-! ### The definitions -/

theorem evaluate_log_eq_quotient (f g : Multifunction) (z : ComplexFloat) (w : Nat) :
    (call2 .log f g).evaluate z w = (binary .div (call .ln f) (call .ln g)).evaluate z w := by
  calc
    (call2 .log f g).evaluate z w
      = cross (· / ·) ((f.evaluate z w).flatMap (·.lnBranches w))
          ((g.evaluate z w).flatMap (·.lnBranches w)) := rfl
    _ = cross (· / ·) ((call .ln f).evaluate z w) ((call .ln g).evaluate z w) := by
      rw [evaluate_call_ln, evaluate_call_ln]
    _ = (binary .div (call .ln f) (call .ln g)).evaluate z w := rfl

theorem evaluate_sqrt_eq_root (f : Multifunction) (z : ComplexFloat) (w : Nat) :
    (call .sqrt f).evaluate z w = (call2 .root f two).evaluate z w := by
  have htwo : two.evaluate z w = [.ofReal 2] := rfl
  calc
    (call .sqrt f).evaluate z w
      = (f.evaluate z w).flatMap (·.roots 2) := rfl
    _ = (f.evaluate z w).flatMap (·.roots (Binary64.toBoundedInt 2)) := by
      rw [Binary64.toBoundedInt_two]
    _ = (call2 .root f two).evaluate z w := (evaluate_root_of_single htwo).symm

/-! ### Written out at any depth -/

/-- The same formula with every logarithm to a base and every square root written by its
definition. -/
def spelledOut : Multifunction → Multifunction
  | constant value => constant value
  | var => var
  | negate operand => negate operand.spelledOut
  | binary operator left right => binary operator left.spelledOut right.spelledOut
  | call function argument =>
    if function = .sqrt then call2 .root argument.spelledOut two
    else call function argument.spelledOut
  | call2 .log first second =>
    binary .div (call .ln first.spelledOut) (call .ln second.spelledOut)
  | call2 .root first second => call2 .root first.spelledOut second.spelledOut

/-- One definition after the other, each at its node: no node sees how its operands are written. -/
theorem evaluate_spelledOut (f : Multifunction) (z : ComplexFloat) (w : Nat) :
    f.spelledOut.evaluate z w = f.evaluate z w := by
  induction f with
  | constant value => rfl
  | var => rfl
  | negate operand ih => rw [spelledOut, evaluate, evaluate, ih]
  | binary operator left right ihLeft ihRight =>
    rw [spelledOut, evaluate, evaluate, ihLeft, ihRight]
  | call function argument ih =>
    have hcall : (call function argument.spelledOut).evaluate z w =
        (call function argument).evaluate z w := by
      rw [evaluate, evaluate, ih]
    rw [spelledOut]
    by_cases hsqrt : function = .sqrt
    · rw [if_pos hsqrt, ← evaluate_sqrt_eq_root, ← hsqrt, hcall]
    · rw [if_neg hsqrt, hcall]
  | call2 function first second ihFirst ihSecond =>
    cases function with
    | log => rw [spelledOut, ← evaluate_log_eq_quotient, evaluate, evaluate, ihFirst, ihSecond]
    | root => rw [spelledOut, evaluate, evaluate, ihFirst, ihSecond]

/-- **A logarithm to a base has the values of a quotient of natural logarithms, a square root those
of a root of degree two, and so has every formula in which both are written out.** -/
theorem evaluate_derived :
    (∀ (f g : Multifunction) (z : ComplexFloat) (w : Nat),
        (call2 .log f g).evaluate z w = (binary .div (call .ln f) (call .ln g)).evaluate z w) ∧
      Formula.compile "2" = .ok two ∧
      (∀ (f : Multifunction) (z : ComplexFloat) (w : Nat),
        (call .sqrt f).evaluate z w = (call2 .root f two).evaluate z w) ∧
      ∀ (f : Multifunction) (z : ComplexFloat) (w : Nat),
        f.spelledOut.evaluate z w = f.evaluate z w := by
  have htwo : Formula.compile "2" = .ok two := by decide +kernel
  exact ⟨evaluate_log_eq_quotient, htwo, evaluate_sqrt_eq_root, evaluate_spelledOut⟩

end Multifunction

end Branchwise
