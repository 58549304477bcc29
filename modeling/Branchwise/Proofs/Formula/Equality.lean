/-
What it means that two formulas have equal functions.

Functions are compared as trees, with their constants compared as numbers.  In general this says
little about values: the two zeros are equal and are not the same value, and NaN is not even equal to
itself.  But a formula cannot write such a constant.  A minus in a formula is an operation and the
words for infinity and NaN are no numerals, so what is left to a constant is digits, and they are worth
a number without a sign; the named constants are no exception.  Trees with plain constants are equal
only if they are the same tree.
-/
import Mathlib.Control.Monad.Basic
import Branchwise.Proofs.Binary64.Unsigned
import Branchwise.Proofs.Expr.Printed
import Branchwise.Proofs.Formula.Composition
import Branchwise.Proofs.Token.Lossless

namespace Branchwise

open Binary64 (IsPlain)

theorem IsNumeral.isPlain {text : List Char} {x : Float} (h : IsNumeral text)
    (hread : Decimal.read? text = some x) : IsPlain x := by
  obtain ⟨n, e, hscaled⟩ := h.exists_scaled
  obtain rfl := Option.some.inj (hscaled.symm.trans hread)
  exact Decimal.isPlain_scaled n e

/-! ### Constants of a tree -/

/-- Neither part of the number is NaN or the negative zero. -/
def ComplexFloat.IsPlain (z : ComplexFloat) : Prop :=
  Binary64.IsPlain z.re ∧ Binary64.IsPlain z.im

theorem ComplexFloat.beq_iff_of_isPlain {z w : ComplexFloat} (hz : z.IsPlain) (hw : w.IsPlain) :
    z == w ↔ z = w := by
  obtain ⟨x, y⟩ := z
  obtain ⟨u, v⟩ := w
  show (x == u && y == v) = true ↔ _
  rw [Bool.and_eq_true, Binary64.beq_iff_of_isPlain hz.1 hw.1,
    Binary64.beq_iff_of_isPlain hz.2 hw.2, ComplexFloat.mk.injEq]

instance (z : ComplexFloat) : Decidable z.IsPlain :=
  inferInstanceAs (Decidable (_ ∧ _))

theorem ComplexFloat.isPlain_ofReal {x : Float} (hx : Binary64.IsPlain x) : (ofReal x).IsPlain := by
  have hzero : Binary64.IsPlain 0 := by decide
  exact ⟨hx, hzero⟩

theorem Constant.isPlain_value (c : Constant) : c.value.IsPlain := by
  cases c <;> decide

namespace Multifunction

/-- The numbers in a tree, from left to right. -/
def constants : Multifunction → List ComplexFloat
  | constant z => [z]
  | var => []
  | negate f => f.constants
  | binary _ f g => f.constants ++ g.constants
  | call _ f => f.constants
  | call2 _ f g => f.constants ++ g.constants

/-- Each constant of the tree is plain. -/
def IsPlain (f : Multifunction) : Prop :=
  ∀ z ∈ f.constants, z.IsPlain

theorem isPlain_append {f g h : Multifunction} (hconstants : h.constants = f.constants ++ g.constants) :
    h.IsPlain ↔ f.IsPlain ∧ g.IsPlain := by
  rw [IsPlain, hconstants, List.forall_mem_append]
  rfl

/-- **Trees with plain constants are equal only if they are the same.** -/
theorem beq_iff_of_isPlain {f g : Multifunction} (hf : f.IsPlain) (hg : g.IsPlain) :
    f == g ↔ f = g := by
  show f.equal g = true ↔ _
  induction f generalizing g with
  | constant z =>
    cases g with
    | constant w =>
      have hz : z.IsPlain := hf z List.mem_cons_self
      have hw : w.IsPlain := hg w List.mem_cons_self
      simpa [equal] using ComplexFloat.beq_iff_of_isPlain hz hw
    | _ => simp [equal]
  | var => cases g <;> simp [equal]
  | negate f ih =>
    cases g with
    | negate g =>
      have hsame : f.equal g ↔ f = g := ih hf hg
      simp [equal, hsame]
    | _ => simp [equal]
  | binary operator f₁ f₂ ih₁ ih₂ =>
    cases g with
    | binary operator' g₁ g₂ =>
      obtain ⟨hf₁, hf₂⟩ := (isPlain_append rfl).1 hf
      obtain ⟨hg₁, hg₂⟩ := (isPlain_append rfl).1 hg
      simp [equal, ih₁ hf₁ hg₁, ih₂ hf₂ hg₂, and_assoc]
    | _ => simp [equal]
  | call function f ih =>
    cases g with
    | call function' g =>
      have hsame : f.equal g ↔ f = g := ih hf hg
      simp [equal, hsame]
    | _ => simp [equal]
  | call2 function f₁ f₂ ih₁ ih₂ =>
    cases g with
    | call2 function' g₁ g₂ =>
      obtain ⟨hf₁, hf₂⟩ := (isPlain_append rfl).1 hf
      obtain ⟨hg₁, hg₂⟩ := (isPlain_append rfl).1 hg
      simp [equal, ih₁ hf₁ hg₁, ih₂ hf₂ hg₂, and_assoc]
    | _ => simp [equal]

/-- The negative zero has to be left out: it is equal to zero and another value. -/
example :
    constant (.ofReal 0) == constant (.ofReal (-0)) ∧
      (constant (.ofReal 0)).evaluate .zero 0 ≠ (constant (.ofReal (-0))).evaluate .zero 0 := by
  decide

end Multifunction

/-! ### Constants of a formula -/

/-- The number of the token, if it has one, is plain. -/
def Token.IsPlain (t : Token) : Prop :=
  ∀ x, t.kind = .number x → Binary64.IsPlain x

theorem Token.IsWritten.isPlain {t : Token} (ht : t.IsWritten) : t.IsPlain := by
  obtain ⟨previous, p, hp, hwrites⟩ := ht
  intro x hx
  obtain ⟨digits, rfl⟩ := hwrites.exists_numeral hx
  obtain ⟨⟨y, hkind, hread⟩, -⟩ := hwrites
  obtain rfl := Kind.number.inj (hkind.symm.trans hx)
  cases hp with
  | numeral _ _ hnumeral => exact hnumeral.isPlain hread

namespace Multifunction

theorem isPlain_of_ofToken {t : Token} {f : Multifunction} (ht : t.IsPlain)
    (h : ofToken t = .ok f) : f.IsPlain := by
  unfold ofToken at h
  split at h
  · rename_i x hx
    obtain rfl := Except.ok.inj h
    exact List.forall_mem_singleton.2 (ComplexFloat.isPlain_ofReal (ht x hx))
  · obtain rfl := Except.ok.inj h
    exact nofun
  · obtain ⟨c, -, hc⟩ := bind_eq_ok_iff.1 h
    obtain rfl := Except.ok.inj hc
    exact List.forall_mem_singleton.2 c.isPlain_value
  · cases h

/-- A tree takes its constants from its tokens. -/
theorem isPlain_of_ofExpr {e : Expr} {f : Multifunction} (ht : ∀ t ∈ e.tokens, t.IsPlain)
    (h : ofExpr e = .ok f) : f.IsPlain := by
  induction e generalizing f with
  | value t => exact isPlain_of_ofToken (ht t List.mem_cons_self) h
  | unary op operand ih =>
    obtain ⟨-, hoperand⟩ := List.forall_mem_cons.1 ht
    obtain ⟨-, g, hg, rfl⟩ := ofExpr_unary_eq_ok_iff.1 h
    have hplain : g.IsPlain := ih hoperand hg
    exact hplain
  | paren opening inner closing ih =>
    obtain ⟨-, hinner, -⟩ := Expr.forall_tokens_paren.1 ht
    exact ih hinner h
  | binary left op right ihLeft ihRight =>
    obtain ⟨hleft, -, hright⟩ := Expr.forall_tokens_binary.1 ht
    obtain ⟨-, -, l, hl, r, hr, rfl⟩ := ofExpr_binary_eq_ok_iff.1 h
    exact (isPlain_append rfl).2 ⟨ihLeft hleft hl, ihRight hright hr⟩
  | call t opening argument closing ih =>
    obtain ⟨-, -, hargument, -⟩ := Expr.forall_tokens_call.1 ht
    obtain ⟨-, -, g, hg, rfl⟩ := ofExpr_call_eq_ok_iff.1 h
    have hplain : g.IsPlain := ih hargument hg
    exact hplain
  | call2 t opening first separator second closing ihFirst ihSecond =>
    obtain ⟨-, -, hfirst, -, hsecond, -⟩ := Expr.forall_tokens_call2.1 ht
    obtain ⟨-, -, l, hl, r, hr, rfl⟩ := ofExpr_call2_eq_ok_iff.1 h
    exact (isPlain_append rfl).2 ⟨ihFirst hfirst hl, ihSecond hsecond hr⟩

end Multifunction

namespace Formula

variable {a b : String} {f g : Multifunction}

/-- A formula writes neither NaN nor the negative zero. -/
theorem isPlain_of_compile (h : compile a = .ok f) : f.IsPlain := by
  obtain ⟨ts, htokens, e, he, hf⟩ := compile_eq_ok_iff.1 h
  refine Multifunction.isPlain_of_ofExpr ?_ hf
  rw [(parse_sound he).2]
  exact fun t ht => (isWritten_of_tokenize htokens t ht).isPlain

/-- **Formulas that compile to equal functions have the same values, bit for bit.** -/
theorem evaluate_eq_of_beq (ha : compile a = .ok f) (hb : compile b = .ok g) :
    (∀ z ∈ f.constants, z.IsPlain) ∧ f == f ∧
      (f == g → ∀ z window, f.evaluate z window = g.evaluate z window) := by
  have hf := isPlain_of_compile ha
  have hg := isPlain_of_compile hb
  refine ⟨hf, (Multifunction.beq_iff_of_isPlain hf hf).2 rfl, ?_⟩
  intro hequal z window
  rw [(Multifunction.beq_iff_of_isPlain hf hg).1 hequal]

/-- A product that is written out and one that is not. -/
theorem evaluate_eq_of_beq_product :
    ∃ f g, compile "2z" = .ok f ∧ compile "2 * x" = .ok g ∧ f == g ∧
      ∀ z window, f.evaluate z window = g.evaluate z window := by
  have ha : compile "2z" = .ok (.binary .mul (.constant (.ofReal 2)) .var) := by decide +kernel
  have hb : compile "2 * x" = .ok (.binary .mul (.constant (.ofReal 2)) .var) := by decide +kernel
  obtain ⟨-, hself, hvalues⟩ := evaluate_eq_of_beq ha hb
  exact ⟨_, _, ha, hb, hself, hvalues hself⟩

end Formula

end Branchwise
