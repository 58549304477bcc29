/-
Evaluation as an enumeration of branch assignments.

A branch assignment picks a branch for each logarithm and each root that stands in a function, and
with all of them picked there is a single value.  The indices it picks are read from left to right,
the operands' before the function's own; a logarithm to a base takes an index for each operand
right behind that operand's.  `Multifunction.Takes` gives the value under an assignment, by
itself and without lists.  What an index may be can depend on a value: a root has as many branches
as its degree, and that is a value of the second operand.

`evaluate_enumerates` says that evaluation goes through all assignments in lexicographic order,
once through each.  Every operation on lists of values is a `flatMap`, and a `flatMap` appends
indices: `Lists.flatMap` is the step for all of them.  It needs that all assignments of one list
have the same length, for otherwise appending might change their order.
-/
import Mathlib
import Branchwise.Proofs.Branches.Window

namespace Branchwise

/-! ### Assignments -/

/-- What the branch indices range over that a function picks at one value of its argument. -/
def Function.branchRanges (w : Nat) : Function → List (Set Int)
  | .ln | .asin | .acos | .arsh | .arch => [Set.Icc (-w) w]
  | .atg | .actg | .arth | .arcth => [Set.Icc (-w) w, Set.Icc (-w) w]
  | .sqrt => [Set.Ico 0 2]
  | _ => []

/-- Root number `k` of a degree. -/
def ComplexFloat.rootOn (z : ComplexFloat) (degree k : Int) : ComplexFloat :=
  let d := Float.ofInt degree
  rootOnBranch (z.norm.pow (1 / d)) z.arg d k.toNat

/-- The value at `z` on the branches with these indices. -/
def Function.Scheme.valueOn (z : ComplexFloat) : Scheme → List Int → ComplexFloat
  | .single value, [] => value z
  | .logarithm inner outer, [k] => outer ((inner z).ln.onBranch k)
  | .logarithms left right combine, [k, l] =>
    combine ((left z).ln.onBranch k) ((right z).ln.onBranch l)
  | .inverseLogarithms left right combine, [k, l] =>
    (combine ((left z).ln.onBranch k) ((right z).ln.onBranch l)).inverse
  | .roots degree, [k] => z.rootOn degree k
  | _, _ => .zero

/-- The value of a function at `z` on the branches with these indices. -/
def Function.valueOn (f : Function) (z : ComplexFloat) (ks : List Int) : ComplexFloat :=
  f.scheme.valueOn z ks

/-- The area cotangent has no value where the area tangent of the inverse is zero. -/
def Function.Drops : Function → ComplexFloat → List Int → Prop
  | .arcth, z, ks => Function.arth.valueOn z.inverse ks == ComplexFloat.zero
  | _, _, _ => False

/-- Under the branch indices `ks`, read from left to right, the function has the value `v`. -/
inductive Multifunction.Takes (z : ComplexFloat) (w : Nat) :
    Multifunction → List Int → ComplexFloat → Prop
  | constant {v : ComplexFloat} : Takes z w (constant v) [] v
  | var : Takes z w var [] z
  | negate {f : Multifunction} {ks : List Int} {v : ComplexFloat} (hf : Takes z w f ks v) :
      Takes z w (negate f) ks (-v)
  | binary {op : Operator} {f g : Multifunction} {ks ls : List Int} {u v : ComplexFloat}
      (hf : Takes z w f ks u) (hg : Takes z w g ls v) :
      Takes z w (binary op f g) (ks ++ ls) (op.apply u v)
  | call {name : Function} {f : Multifunction} {ks own : List Int} {u : ComplexFloat}
      (hf : Takes z w f ks u) (hown : List.Forall₂ (· ∈ ·) own (name.branchRanges w))
      (hkept : ¬ name.Drops u own) : Takes z w (call name f) (ks ++ own) (name.valueOn u own)
  | log {f g : Multifunction} {ks ls : List Int} {k l : Int} {u v : ComplexFloat}
      (hf : Takes z w f ks u) (hk : k ∈ Set.Icc (-(w : Int)) w)
      (hg : Takes z w g ls v) (hl : l ∈ Set.Icc (-(w : Int)) w) :
      Takes z w (call2 .log f g) (ks ++ [k] ++ (ls ++ [l])) (u.ln.onBranch k / v.ln.onBranch l)
  | root {f g : Multifunction} {ks ls : List Int} {k d : Int} {u v : ComplexFloat}
      (hf : Takes z w f ks u) (hg : Takes z w g ls v) (hd : d = Binary64.toBoundedInt v.re)
      (hlimit : d.natAbs ≤ maxRootDegree) (hk : k ∈ Set.Ico 0 (d.natAbs : Int)) :
      Takes z w (call2 .root f g) (ks ++ (ls ++ [k])) (u.rootOn d k)

/-- How many branch indices the function picks by itself, in any window. -/
def Function.indexCount (f : Function) : Nat :=
  (f.branchRanges 0).length

/-- How many branch indices an assignment has: one for each logarithm and each root. -/
def Multifunction.indexCount : Multifunction → Nat
  | constant _ | var => 0
  | negate operand => operand.indexCount
  | binary _ left right => left.indexCount + right.indexCount
  | call function argument => argument.indexCount + function.indexCount
  | call2 .log first second => (first.indexCount + 1) + (second.indexCount + 1)
  | call2 .root first second => first.indexCount + (second.indexCount + 1)

/-! ### Lists of values with their indices -/

section

variable {α β : Type} {m n : Nat}

/-- The entries are all indices with their values, in lexicographic order. -/
structure Enumerates (entries : List (List Int × α)) (takes : List Int → α → Prop) : Prop where
  /-- No indices stand twice. -/
  increasing : entries.Pairwise fun a b => a.1 < b.1
  mem_iff : ∀ ks v, (ks, v) ∈ entries ↔ takes ks v

/-- The values that are taken under `n` indices, in lexicographic order of these. -/
def Lists (n : Nat) (values : List α) (takes : List Int → α → Prop) : Prop :=
  ∃ entries, Enumerates entries takes ∧ (∀ e ∈ entries, e.1.length = n) ∧
    values = entries.map Prod.snd

variable {values : List α} {takes takes' : List Int → α → Prop}

theorem Lists.congr (h : Lists n values takes) (htakes : ∀ ks v, takes ks v ↔ takes' ks v) :
    Lists n values takes' := by
  obtain ⟨entries, hentries, hlength, hvalues⟩ := h
  exact ⟨entries, ⟨hentries.increasing, fun ks v => by rw [hentries.mem_iff, htakes]⟩, hlength,
    hvalues⟩

theorem lists_singleton (v : α) : Lists 0 [v] fun ks u => ks = [] ∧ u = v :=
  ⟨[([], v)], ⟨List.pairwise_singleton _ _, by simp⟩, by simp, rfl⟩

/-- A single index that is picked from an ascending list. -/
theorem lists_map_indices {indices : List Int} (h : indices.Pairwise (· < ·)) (value : Int → α) :
    Lists 1 (indices.map value) fun ks u => ∃ k ∈ indices, [k] = ks ∧ value k = u := by
  refine ⟨indices.map fun k => ([k], value k), ⟨?_, ?_⟩, by simp, by simp⟩
  · rw [List.pairwise_map]
    exact h.imp fun hlt => List.cons_lt_cons_iff.2 (.inl hlt)
  · simp

theorem Lists.map (h : Lists n values takes) (f : α → β) :
    Lists n (values.map f) fun ks u => ∃ v, takes ks v ∧ f v = u := by
  obtain ⟨entries, hentries, hlength, rfl⟩ := h
  refine ⟨entries.map fun e => (e.1, f e.2), ⟨?_, ?_⟩, ?_, by simp⟩
  · rw [List.pairwise_map]
    exact hentries.increasing
  · simp [← hentries.mem_iff]
  · intro e he
    obtain ⟨e', he', rfl⟩ := List.mem_map.1 he
    exact hlength e' he'

theorem Lists.filter (h : Lists n values takes) (keep : α → Bool) :
    Lists n (values.filter keep) fun ks v => takes ks v ∧ keep v := by
  obtain ⟨entries, hentries, hlength, rfl⟩ := h
  refine ⟨entries.filter fun e => keep e.2, ⟨hentries.increasing.filter _, ?_⟩, ?_, ?_⟩
  · simp [hentries.mem_iff]
  · intro e he
    exact hlength e (List.mem_of_mem_filter he)
  · rw [List.filter_map]
    rfl

/-- Indices of one length stay in order when more indices are appended. -/
theorem append_lt_append {ks ls : List Int} (h : ks < ls) (hlength : ks.length = ls.length)
    (ks' ls' : List Int) : ks ++ ks' < ls ++ ls' := by
  induction ks generalizing ls with
  | nil =>
    obtain rfl := List.eq_nil_of_length_eq_zero hlength.symm
    exact absurd h (List.not_lt_nil [])
  | cons k ks ih =>
    cases ls with
    | nil => simp at hlength
    | cons l ls =>
      rw [List.cons_append, List.cons_append, List.cons_lt_cons_iff]
      rcases List.cons_lt_cons_iff.1 h with hlt | ⟨heq, hlt⟩
      · exact .inl hlt
      · exact .inr ⟨heq, ih hlt (by simpa using hlength)⟩

/-- **Values that come from values append their indices.** -/
theorem Lists.flatMap {next : α → List β} {follows : α → List Int → β → Prop}
    (h : Lists m values takes) (hnext : ∀ v, Lists n (next v) (follows v)) :
    Lists (m + n) (values.flatMap next) fun ks u =>
      ∃ ls v own, takes ls v ∧ follows v own u ∧ ls ++ own = ks := by
  obtain ⟨entries, hentries, hlength, rfl⟩ := h
  choose inner hinner hinnerLength hinnerValues using hnext
  refine ⟨entries.flatMap fun e => (inner e.2).map fun i => (e.1 ++ i.1, i.2), ⟨?_, ?_⟩, ?_, ?_⟩
  · rw [List.pairwise_flatMap]
    refine ⟨?_, ?_⟩
    · intro e _
      rw [List.pairwise_map]
      exact (hinner e.2).increasing.imp fun hlt => List.append_left_lt hlt
    · refine hentries.increasing.imp_of_mem fun {a b} ha hb hlt => ?_
      intro x hx y hy
      obtain ⟨i, -, rfl⟩ := List.mem_map.1 hx
      obtain ⟨j, -, rfl⟩ := List.mem_map.1 hy
      exact append_lt_append hlt ((hlength a ha).trans (hlength b hb).symm) i.1 j.1
  · intro ks u
    simp only [List.mem_flatMap, List.mem_map, Prod.exists, Prod.mk.injEq, hentries.mem_iff,
      (hinner _).mem_iff]
    grind
  · intro e he
    obtain ⟨a, ha, he⟩ := List.mem_flatMap.1 he
    obtain ⟨i, hi, rfl⟩ := List.mem_map.1 he
    rw [List.length_append, hlength a ha, hinnerLength a.2 i hi]
  · rw [List.map_flatMap, List.flatMap_map]
    refine List.flatMap_congr fun e _ => ?_
    rw [hinnerValues, List.map_map]
    rfl

/-- Of two lists that are paired the first one's indices come first. -/
theorem Lists.cross {γ : Type} {others : List β} {takesOther : List Int → β → Prop}
    (h : Lists m values takes) (h' : Lists n others takesOther) (combine : α → β → γ) :
    Lists (m + n) (cross combine values others) fun ks u =>
      ∃ ls a own b, takes ls a ∧ takesOther own b ∧ ls ++ own = ks ∧ combine a b = u := by
  refine (h.flatMap fun a => h'.map (combine a)).congr fun ks u => ?_
  grind

theorem lists_nil (h : ∀ ks v, ¬ takes ks v) : Lists n [] takes :=
  ⟨[], ⟨List.Pairwise.nil, fun ks v => by simp [h]⟩, by simp, rfl⟩

end

/-! ### Logarithms and roots -/

section

variable (z : ComplexFloat) (w : Nat)

theorem mem_Icc_iff_mem_branchIndices {k : Int} :
    k ∈ Set.Icc (-(w : Int)) w ↔ k ∈ branchIndices w := by
  rw [mem_branchIndices_iff, Set.mem_Icc]

theorem lists_lnBranches :
    Lists 1 (z.lnBranches w) fun ks u =>
      ∃ k ∈ Set.Icc (-(w : Int)) w, [k] = ks ∧ z.ln.onBranch k = u := by
  refine (lists_map_indices (pairwise_branchIndices w) z.ln.onBranch).congr fun ks u => ?_
  simp only [mem_Icc_iff_mem_branchIndices]

/-- Of two logarithms each has a branch of its own. -/
theorem lists_cross_lnBranches {α : Type} (combine : ComplexFloat → ComplexFloat → α)
    (z' : ComplexFloat) :
    Lists 2 (cross combine (z.lnBranches w) (z'.lnBranches w)) fun ks u =>
      ∃ k ∈ Set.Icc (-(w : Int)) w, ∃ l ∈ Set.Icc (-(w : Int)) w, [k, l] = ks ∧
        combine (z.ln.onBranch k) (z'.ln.onBranch l) = u := by
  refine ((lists_lnBranches z w).cross (lists_lnBranches z' w) combine).congr fun ks u => ?_
  refine ⟨?_, ?_⟩
  · intro h
    obtain ⟨_, _, _, _, ⟨k, hk, rfl, rfl⟩, ⟨l, hl, rfl, rfl⟩, rfl, rfl⟩ := h
    exact ⟨k, hk, l, hl, rfl, rfl⟩
  · intro h
    obtain ⟨k, hk, l, hl, rfl, rfl⟩ := h
    exact ⟨_, _, _, _, ⟨k, hk, rfl, rfl⟩, ⟨l, hl, rfl, rfl⟩, rfl, rfl⟩

/-- Degree zero has no root, for no index lies from zero up to zero. -/
theorem lists_roots (d : Int) :
    Lists 1 (z.roots d) fun ks u =>
      ∃ k ∈ Set.Ico 0 (d.natAbs : Int), d.natAbs ≤ maxRootDegree ∧ [k] = ks ∧
        z.rootOn d k = u := by
  unfold ComplexFloat.roots
  split
  · refine lists_nil fun ks u h => ?_
    obtain ⟨k, hk, hlimit, -⟩ := h
    have hrange := Set.mem_Ico.1 hk
    omega
  · have hroots : (List.range d.natAbs).map
        (ComplexFloat.rootOnBranch (z.norm.pow (1 / Float.ofInt d)) z.arg (Float.ofInt d)) =
          ((List.range d.natAbs).map Int.ofNat).map (z.rootOn d) := by
      rw [List.map_map]
      rfl
    have hordered : ((List.range d.natAbs).map Int.ofNat).Pairwise (· < ·) := by
      rw [List.pairwise_map]
      exact List.pairwise_lt_range.imp fun h => Int.ofNat_lt.2 h
    show Lists 1 (List.map _ _) _
    rw [hroots]
    refine (lists_map_indices hordered (z.rootOn d)).congr fun ks u => ?_
    have hmem (k : Int) : k ∈ (List.range d.natAbs).map Int.ofNat ↔
        k ∈ Set.Ico 0 (d.natAbs : Int) := by
      rw [List.mem_map, Set.mem_Ico]
      refine ⟨?_, ?_⟩
      · intro h
        obtain ⟨n, hn, rfl⟩ := h
        have hlt := List.mem_range.1 hn
        exact ⟨Int.natCast_nonneg n, Int.ofNat_lt.2 hlt⟩
      · intro h
        exact ⟨k.toNat, List.mem_range.2 (by omega), Int.toNat_of_nonneg h.1⟩
    have hlimit : d.natAbs ≤ maxRootDegree := by omega
    simp only [hmem, hlimit, true_and]

end

/-! ### Values of functions -/

namespace Function

variable {z : ComplexFloat} {w : Nat} {f : Function}

/-- The function lists its values on the branches that are its own. -/
def ListsValues (f : Function) (z : ComplexFloat) (w : Nat) : Prop :=
  Lists f.indexCount (f.values z w) fun ks u =>
    List.Forall₂ (· ∈ ·) ks (f.branchRanges w) ∧ ¬ f.Drops z ks ∧ f.valueOn z ks = u

theorem length_branchRanges (f : Function) (w : Nat) :
    (f.branchRanges w).length = f.indexCount := by
  cases f <;> rfl

/-- Only the area cotangent leaves values out. -/
theorem listsValues_of_ne_arcth (hf : f ≠ .arcth)
    (h : Lists (f.branchRanges w).length (f.values z w) fun ks u =>
      List.Forall₂ (· ∈ ·) ks (f.branchRanges w) ∧ f.valueOn z ks = u) : f.ListsValues z w := by
  rw [length_branchRanges] at h
  refine h.congr fun ks u => ?_
  have hkept : ¬ f.Drops z ks := by cases f <;> simp_all [Drops]
  simp only [hkept, not_false_eq_true, true_and]

theorem forall₂_singleton_iff {ks : List Int} {s : Set Int} :
    List.Forall₂ (· ∈ ·) ks [s] ↔ ∃ k ∈ s, [k] = ks := by
  refine ⟨?_, ?_⟩
  · intro h
    obtain ⟨k, _, hk, hnil, rfl⟩ := List.forall₂_cons_right_iff.1 h
    obtain rfl := List.forall₂_nil_right_iff.1 hnil
    exact ⟨k, hk, rfl⟩
  · intro h
    obtain ⟨k, hk, rfl⟩ := h
    exact .cons hk .nil

theorem forall₂_pair_iff {ks : List Int} {s t : Set Int} :
    List.Forall₂ (· ∈ ·) ks [s, t] ↔ ∃ k ∈ s, ∃ l ∈ t, [k, l] = ks := by
  refine ⟨?_, ?_⟩
  · intro h
    obtain ⟨k, _, hk, hrest, rfl⟩ := List.forall₂_cons_right_iff.1 h
    obtain ⟨l, hl, rfl⟩ := forall₂_singleton_iff.1 hrest
    exact ⟨k, hk, l, hl, rfl⟩
  · intro h
    obtain ⟨k, hk, l, hl, rfl⟩ := h
    exact .cons hk (.cons hl .nil)

theorem listsValues_of_single {value : ComplexFloat → ComplexFloat} (hf : f ≠ .arcth)
    (hscheme : f.scheme = .single value) (hranges : f.branchRanges w = []) :
    f.ListsValues z w := by
  refine listsValues_of_ne_arcth hf ?_
  rw [hranges, values, hscheme]
  refine (lists_singleton (value z)).congr fun ks u => ?_
  rw [List.forall₂_nil_right_iff]
  refine and_congr_right fun hks => ?_
  subst hks
  rw [valueOn, hscheme]
  exact eq_comm

theorem listsValues_of_logarithm {inner outer : ComplexFloat → ComplexFloat} (hf : f ≠ .arcth)
    (hscheme : f.scheme = .logarithm inner outer)
    (hranges : f.branchRanges w = [Set.Icc (-(w : Int)) w]) : f.ListsValues z w := by
  refine listsValues_of_ne_arcth hf ?_
  rw [hranges, values, hscheme]
  refine ((lists_lnBranches (inner z) w).map outer).congr fun ks u => ?_
  rw [forall₂_singleton_iff, valueOn, hscheme]
  refine ⟨?_, ?_⟩
  · intro h
    obtain ⟨_, ⟨k, hk, rfl, rfl⟩, rfl⟩ := h
    exact ⟨⟨k, hk, rfl⟩, rfl⟩
  · intro h
    obtain ⟨⟨k, hk, rfl⟩, rfl⟩ := h
    exact ⟨_, ⟨k, hk, rfl, rfl⟩, rfl⟩

theorem listsValues_of_logarithms {left right : ComplexFloat → ComplexFloat}
    {combine : ComplexFloat → ComplexFloat → ComplexFloat} (hf : f ≠ .arcth)
    (hscheme : f.scheme = .logarithms left right combine)
    (hranges : f.branchRanges w = [Set.Icc (-(w : Int)) w, Set.Icc (-(w : Int)) w]) :
    f.ListsValues z w := by
  refine listsValues_of_ne_arcth hf ?_
  rw [hranges, values, hscheme]
  refine (lists_cross_lnBranches (left z) w combine (right z)).congr fun ks u => ?_
  rw [forall₂_pair_iff, valueOn, hscheme]
  refine ⟨?_, ?_⟩
  · intro h
    obtain ⟨k, hk, l, hl, rfl, rfl⟩ := h
    exact ⟨⟨k, hk, l, hl, rfl⟩, rfl⟩
  · intro h
    obtain ⟨⟨k, hk, l, hl, rfl⟩, rfl⟩ := h
    exact ⟨k, hk, l, hl, rfl, rfl⟩

theorem listsValues_sqrt : Function.sqrt.ListsValues z w := by
  refine listsValues_of_ne_arcth nofun ?_
  refine (lists_roots z 2).congr fun ks u => ?_
  have hranges : Function.sqrt.branchRanges w = [Set.Ico 0 2] := rfl
  have hlimit : (2 : Int).natAbs ≤ maxRootDegree := by decide
  rw [hranges, forall₂_singleton_iff]
  refine ⟨?_, ?_⟩
  · intro h
    obtain ⟨k, hk, -, rfl, rfl⟩ := h
    exact ⟨⟨k, hk, rfl⟩, rfl⟩
  · intro h
    obtain ⟨⟨k, hk, rfl⟩, rfl⟩ := h
    exact ⟨k, hk, hlimit, rfl, rfl⟩

theorem drops_arcth_iff {k l : Int} :
    Function.arcth.Drops z [k, l] ↔
      arthCombine ((arthLeft z.inverse).ln.onBranch k) ((arthRight z.inverse).ln.onBranch l) ==
        ComplexFloat.zero :=
  Iff.rfl

/-- What is zero before the inverse is taken is left out. -/
theorem listsValues_arcth : Function.arcth.ListsValues z w := by
  have hpairs := lists_cross_lnBranches (arthLeft z.inverse) w arthCombine (arthRight z.inverse)
  refine ((hpairs.filter (· != ComplexFloat.zero)).map ComplexFloat.inverse).congr fun ks u => ?_
  have hranges : Function.arcth.branchRanges w = [Set.Icc (-(w : Int)) w, Set.Icc (-(w : Int)) w] :=
    rfl
  rw [hranges, forall₂_pair_iff]
  refine ⟨?_, ?_⟩
  · intro h
    obtain ⟨v, ⟨⟨k, hk, l, hl, rfl, rfl⟩, hkept⟩, rfl⟩ := h
    exact ⟨⟨k, hk, l, hl, rfl⟩, by simpa [bne, drops_arcth_iff] using hkept, rfl⟩
  · intro h
    obtain ⟨⟨k, hk, l, hl, rfl⟩, hkept, rfl⟩ := h
    exact ⟨_, ⟨⟨k, hk, l, hl, rfl, rfl⟩, by simpa [bne, drops_arcth_iff] using hkept⟩, rfl⟩

theorem listsValues (f : Function) (z : ComplexFloat) (w : Nat) : f.ListsValues z w := by
  cases f with
  | ln | asin | acos | arsh | arch => exact listsValues_of_logarithm nofun rfl rfl
  | atg | actg | arth => exact listsValues_of_logarithms nofun rfl rfl
  | arcth => exact listsValues_arcth
  | sqrt => exact listsValues_sqrt
  | _ => exact listsValues_of_single nofun rfl rfl

end Function

/-! ### Values of formulas -/

namespace Multifunction

variable {z : ComplexFloat} {w : Nat} {f g : Multifunction} {ks : List Int} {u : ComplexFloat}

/-! An assignment of an operation is made of assignments of its operands. -/

theorem takes_negate_iff :
    Takes z w (negate f) ks u ↔ ∃ v, Takes z w f ks v ∧ -v = u := by
  refine ⟨?_, ?_⟩
  · intro h
    cases h with
    | negate hf => exact ⟨_, hf, rfl⟩
  · intro h
    obtain ⟨v, hf, rfl⟩ := h
    exact .negate hf

theorem takes_binary_iff {op : Operator} :
    Takes z w (binary op f g) ks u ↔
      ∃ ls a own b, Takes z w f ls a ∧ Takes z w g own b ∧ ls ++ own = ks ∧ op.apply a b = u := by
  refine ⟨?_, ?_⟩
  · intro h
    cases h with
    | binary hf hg => exact ⟨_, _, _, _, hf, hg, rfl, rfl⟩
  · intro h
    obtain ⟨ls, a, own, b, hf, hg, rfl, rfl⟩ := h
    exact .binary hf hg

theorem takes_call_iff {name : Function} :
    Takes z w (call name f) ks u ↔
      ∃ ls a own, Takes z w f ls a ∧
        (List.Forall₂ (· ∈ ·) own (name.branchRanges w) ∧ ¬ name.Drops a own ∧
          name.valueOn a own = u) ∧ ls ++ own = ks := by
  refine ⟨?_, ?_⟩
  · intro h
    cases h with
    | call hf hown hkept => exact ⟨_, _, _, hf, ⟨hown, hkept, rfl⟩, rfl⟩
  · intro h
    obtain ⟨ls, a, own, hf, ⟨hown, hkept, rfl⟩, rfl⟩ := h
    exact .call hf hown hkept

/-- The logarithm of an operand, with the index of its branch right behind the operand's. -/
def TakesLogarithm (z : ComplexFloat) (w : Nat) (f : Multifunction) (ks : List Int)
    (u : ComplexFloat) : Prop :=
  ∃ ls a own, Takes z w f ls a ∧
    (∃ k ∈ Set.Icc (-(w : Int)) w, [k] = own ∧ a.ln.onBranch k = u) ∧ ls ++ own = ks

theorem takes_log_iff :
    Takes z w (call2 .log f g) ks u ↔
      ∃ ls a own b, TakesLogarithm z w f ls a ∧ TakesLogarithm z w g own b ∧ ls ++ own = ks ∧
        a / b = u := by
  refine ⟨?_, ?_⟩
  · intro h
    cases h with
    | log hf hk hg hl =>
      exact ⟨_, _, _, _, ⟨_, _, _, hf, ⟨_, hk, rfl, rfl⟩, rfl⟩, ⟨_, _, _, hg, ⟨_, hl, rfl, rfl⟩, rfl⟩,
        rfl, rfl⟩
  · intro h
    obtain ⟨_, _, _, _, ⟨_, _, _, hf, ⟨_, hk, rfl, rfl⟩, rfl⟩,
      ⟨_, _, _, hg, ⟨_, hl, rfl, rfl⟩, rfl⟩, rfl, rfl⟩ := h
    exact .log hf hk hg hl

theorem takes_root_iff :
    Takes z w (call2 .root f g) ks u ↔
      ∃ ls a own, Takes z w f ls a ∧
        (∃ ms b last, Takes z w g ms b ∧
          (∃ k ∈ Set.Ico 0 ((Binary64.toBoundedInt b.re).natAbs : Int),
            (Binary64.toBoundedInt b.re).natAbs ≤ maxRootDegree ∧ [k] = last ∧
              a.rootOn (Binary64.toBoundedInt b.re) k = u) ∧ ms ++ last = own) ∧ ls ++ own = ks := by
  refine ⟨?_, ?_⟩
  · intro h
    cases h with
    | root hf hg hd hlimit hk =>
      subst hd
      exact ⟨_, _, _, hf, ⟨_, _, _, hg, ⟨_, hk, hlimit, rfl, rfl⟩, rfl⟩, rfl⟩
  · intro h
    obtain ⟨_, _, _, hf, ⟨_, _, _, hg, ⟨_, hk, hlimit, rfl, rfl⟩, rfl⟩, rfl⟩ := h
    exact .root hf hg rfl hlimit hk

/-- One step for each node of the function. -/
theorem lists_evaluate (f : Multifunction) (z : ComplexFloat) (w : Nat) :
    Lists f.indexCount (f.evaluate z w) (f.Takes z w) := by
  induction f with
  | constant value =>
    refine (lists_singleton value).congr fun ks u => ⟨?_, ?_⟩
    · intro h
      obtain ⟨rfl, rfl⟩ := h
      exact .constant
    · intro h
      cases h
      exact ⟨rfl, rfl⟩
  | var =>
    refine (lists_singleton z).congr fun ks u => ⟨?_, ?_⟩
    · intro h
      obtain ⟨rfl, rfl⟩ := h
      exact .var
    · intro h
      cases h
      exact ⟨rfl, rfl⟩
  | negate operand ih => exact (ih.map (-·)).congr fun ks u => takes_negate_iff.symm
  | binary operator left right ihLeft ihRight =>
    exact (ihLeft.cross ihRight operator.apply).congr fun ks u => takes_binary_iff.symm
  | call function argument ih =>
    have hvalues := ih.flatMap fun v => function.listsValues v w
    exact hvalues.congr fun ks u => takes_call_iff.symm
  | call2 function first second ihFirst ihSecond =>
    cases function with
    | log =>
      have hlogs := (ihFirst.flatMap fun v => lists_lnBranches v w).cross
        (ihSecond.flatMap fun v => lists_lnBranches v w) (· / ·)
      exact hlogs.congr fun ks u => takes_log_iff.symm
    | root =>
      have hroots := ihFirst.flatMap fun x =>
        ihSecond.flatMap fun d => lists_roots x (Binary64.toBoundedInt d.re)
      exact hroots.congr fun ks u => takes_root_iff.symm

/-- **Evaluation lists the value under each branch assignment once, in lexicographic order of
the assignments.** -/
theorem evaluate_enumerates (f : Multifunction) (z : ComplexFloat) (w : Nat) :
    ∃ entries, Enumerates entries (f.Takes z w) ∧
      (∀ entry ∈ entries, entry.1.length = f.indexCount) ∧
      f.evaluate z w = entries.map Prod.snd := by
  obtain ⟨entries, hentries, hlength, hvalues⟩ := lists_evaluate f z w
  exact ⟨entries, hentries, hlength, hvalues⟩

end Multifunction

end Branchwise
