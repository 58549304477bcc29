/-
Stages that may fail.

Reading, parsing and looking up each end in a result or an error, and a formula goes through all
three.  These lemmas take a stage apart: if it succeeded, every part of it did, and if it failed,
one part did with the same error.

Where two formulas are to mean the same, their stages are run side by side.  `EndAlike` says of two
runs that they end the same way, and each way of putting stages together keeps it.
-/
import Mathlib.Data.List.Forall2

namespace Branchwise

variable {ε ε' α β : Type}

theorem bind_eq_ok_iff {x : Except ε α} {f : α → Except ε β} {b : β} :
    (x >>= f) = .ok b ↔ ∃ a, x = .ok a ∧ f a = .ok b := by
  cases x with
  | error e => simp [bind, Except.bind]
  | ok a => simp [bind, Except.bind]

theorem map_eq_ok_iff {x : Except ε α} {f : α → β} {b : β} :
    f <$> x = .ok b ↔ ∃ a, x = .ok a ∧ f a = b := by
  cases x with
  | error e => simp [Functor.map, Except.map]
  | ok a => simp [Functor.map, Except.map]

theorem map_eq_error_iff {x : Except ε α} {f : α → β} {e : ε} :
    f <$> x = .error e ↔ x = .error e := by
  cases x with
  | error e' => simp [Functor.map, Except.map]
  | ok a => simp [Functor.map, Except.map]

theorem mapError_eq_ok_iff {x : Except ε α} {f : ε → ε'} {a : α} :
    x.mapError f = .ok a ↔ x = .ok a := by
  cases x with
  | error e => exact ⟨nofun, nofun⟩
  | ok b =>
    refine ⟨fun h => ?_, fun h => ?_⟩
    · cases h
      rfl
    · cases h
      rfl

theorem bind_eq_error_iff {x : Except ε α} {f : α → Except ε β} {e : ε} :
    (x >>= f) = .error e ↔ x = .error e ∨ ∃ a, x = .ok a ∧ f a = .error e := by
  cases x with
  | error e' => simp [bind, Except.bind]
  | ok a => simp [bind, Except.bind]

theorem mapError_eq_error_iff {x : Except ε α} {f : ε → ε'} {e : ε'} :
    x.mapError f = .error e ↔ ∃ e', x = .error e' ∧ f e' = e := by
  cases x with
  | error e' => simp [Except.mapError]
  | ok a => simp [Except.mapError]

theorem mapM_cons_eq_ok_iff {f : α → Except ε β} {x : α} {xs : List α} {ys : List β} :
    (x :: xs).mapM f = .ok ys ↔ ∃ y, f x = .ok y ∧ ∃ zs, xs.mapM f = .ok zs ∧ y :: zs = ys := by
  simp [List.mapM_cons, bind_eq_ok_iff, pure, Except.pure]

theorem mapM_cons_eq_error_iff {f : α → Except ε β} {x : α} {xs : List α} {e : ε} :
    (x :: xs).mapM f = .error e ↔
      f x = .error e ∨ ∃ y, f x = .ok y ∧ xs.mapM f = .error e := by
  simp [List.mapM_cons, bind_eq_error_iff, pure, Except.pure]

/-- The first element that fails is the failure of all. -/
theorem exists_of_mapM_eq_error {f : α → Except ε β} {xs : List α} {e : ε}
    (h : xs.mapM f = .error e) : ∃ x ∈ xs, f x = .error e := by
  induction xs with
  | nil => cases h
  | cons x xs ih =>
    rcases mapM_cons_eq_error_iff.1 h with hx | ⟨y, -, hrest⟩
    · exact ⟨x, List.mem_cons_self, hx⟩
    · obtain ⟨x', hx', he⟩ := ih hrest
      exact ⟨x', List.mem_cons_of_mem x hx', he⟩

theorem exists_of_mapM_eq_ok {f : α → Except ε β} {xs : List α} {ys : List β}
    (h : xs.mapM f = .ok ys) : ∀ y ∈ ys, ∃ x ∈ xs, f x = .ok y := by
  induction xs generalizing ys with
  | nil =>
    obtain rfl : [] = ys := Except.ok.inj h
    simp
  | cons x xs ih =>
    obtain ⟨y, hy, zs, hzs, rfl⟩ := mapM_cons_eq_ok_iff.1 h
    intro y' hy'
    rcases List.mem_cons.1 hy' with rfl | hmem
    · exact ⟨x, List.mem_cons_self, hy⟩
    · obtain ⟨x', hx', hok⟩ := ih hzs y' hmem
      exact ⟨x', List.mem_cons_of_mem x hx', hok⟩

/-! ### Two runs side by side -/

/-- Both runs succeed, with results that are related, or both fail, with errors that are. -/
inductive EndAlike (E : ε → ε' → Prop) (R : α → β → Prop) : Except ε α → Except ε' β → Prop
  | ok {a : α} {b : β} (h : R a b) : EndAlike E R (.ok a) (.ok b)
  | error {e : ε} {e' : ε'} (h : E e e') : EndAlike E R (.error e) (.error e')

namespace EndAlike

variable {δ δ' γ γ' : Type} {E : ε → ε' → Prop} {R : α → β → Prop}

theorem exists_eq_ok {x : Except ε α} {y : Except ε' β} {a : α} (h : EndAlike E R x y)
    (hx : x = .ok a) : ∃ b, y = .ok b ∧ R a b := by
  cases h with
  | ok hab =>
    obtain rfl := Except.ok.inj hx
    exact ⟨_, rfl, hab⟩
  | error => cases hx

theorem exists_eq_error {x : Except ε α} {y : Except ε' β} {e : ε} (h : EndAlike E R x y)
    (hx : x = .error e) : ∃ e', y = .error e' ∧ E e e' := by
  cases h with
  | ok => cases hx
  | error he =>
    obtain rfl := Except.error.inj hx
    exact ⟨_, rfl, he⟩

theorem bind {S : γ → γ' → Prop} {x : Except ε α} {y : Except ε' β} {f : α → Except ε γ}
    {g : β → Except ε' γ'} (h : EndAlike E R x y)
    (hnext : ∀ a b, R a b → EndAlike E S (f a) (g b)) : EndAlike E S (x >>= f) (y >>= g) := by
  cases h with
  | ok hab => exact hnext _ _ hab
  | error he => exact .error he

theorem mapError {D : δ → δ' → Prop} {x : Except ε α} {y : Except ε' β} {f : ε → δ} {g : ε' → δ'}
    (h : EndAlike E R x y) (hcause : ∀ e e', E e e' → D (f e) (g e')) :
    EndAlike D R (x.mapError f) (y.mapError g) := by
  cases h with
  | ok hab => exact .ok hab
  | error he => exact .error (hcause _ _ he)

theorem mono {S : α → β → Prop} {x : Except ε α} {y : Except ε' β} (h : EndAlike E R x y)
    (hresult : ∀ a b, R a b → S a b) : EndAlike E S x y := by
  cases h with
  | ok hab => exact .ok (hresult _ _ hab)
  | error he => exact .error he

theorem mono_error {E' : ε → ε' → Prop} {x : Except ε α} {y : Except ε' β} (h : EndAlike E R x y)
    (hcause : ∀ e e', E e e' → E' e e') : EndAlike E' R x y := by
  cases h with
  | ok hab => exact .ok hab
  | error he => exact .error (hcause _ _ he)

/-- Runs over two rows of parts that pairwise end alike fail at the same place, if at all. -/
theorem mapM {S : γ → γ' → Prop} {f : α → Except ε γ} {g : β → Except ε' γ'} {xs : List α}
    {ys : List β} (h : List.Forall₂ R xs ys) (hstep : ∀ x y, R x y → EndAlike E S (f x) (g y)) :
    EndAlike E (List.Forall₂ S) (xs.mapM f) (ys.mapM g) := by
  induction h with
  | nil => exact .ok .nil
  | cons hxy _ ih =>
    rw [List.mapM_cons, List.mapM_cons]
    refine (hstep _ _ hxy).bind fun a b hab => ?_
    refine ih.bind fun as bs habs => ?_
    exact .ok (.cons hab habs)

end EndAlike

end Branchwise
