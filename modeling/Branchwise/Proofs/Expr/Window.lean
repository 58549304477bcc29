/-
Windows as token sequences.

The rules look at windows through their places; the grammar knows only sequences.  Here the
one is put in terms of the other: the slice of a window, what it is when a token stands at
its first place, its last or some place between, and from that what the shapes of a rule are.
Every shape that a rule lists is a production over the window (`Rule.fits_of_mem_shapes`), and
every tree over the window has a shape that some rule lists (`Expr.Grammatical.exists_shape`).
-/
import Branchwise.Expr.Search
import Branchwise.Proofs.Expr.Depth

namespace Branchwise

namespace Window

variable {tokens : Array Token} {w : Window}

/-- The tokens of the window. -/
def slice (w : Window) (tokens : Array Token) : List Token :=
  (tokens.toList.drop w.start).take w.width

/-- The window lies within the tokens. -/
structure Within (w : Window) (tokens : Array Token) : Prop where
  start_le : w.start ≤ w.stop
  stop_le : w.stop ≤ tokens.size

theorem within_mk {start stop : Nat} (h : start ≤ stop) (h' : stop ≤ tokens.size) :
    (Window.mk start stop).Within tokens :=
  ⟨h, h'⟩

/-! ### Slices -/

theorem Within.length_slice (hw : w.Within tokens) : (w.slice tokens).length = w.width := by
  have h₁ := hw.start_le
  have h₂ := hw.stop_le
  simp only [slice, width, List.length_take, List.length_drop, Array.length_toList]
  omega

theorem slice_whole (tokens : Array Token) :
    (Window.mk 0 tokens.size).slice tokens = tokens.toList := by
  simp [slice, width, ← Array.length_toList]

theorem slice_empty (i : Nat) : (Window.mk i i).slice tokens = [] := by
  simp [slice, width]

/-- A token of the window divides it into the tokens before and the tokens behind. -/
theorem Within.slice_divide (hw : w.Within tokens) {i : Nat} {t : Token} (hi : w.start ≤ i)
    (hi' : i < w.stop) (ht : tokens[i]? = some t) :
    w.slice tokens =
      (Window.mk w.start i).slice tokens ++ t :: (Window.mk (i + 1) w.stop).slice tokens := by
  have hlen := hw.stop_le
  have ht' : tokens.toList[i]? = some t := by simpa using ht
  obtain ⟨hlt, hget⟩ := List.getElem?_eq_some_iff.1 ht'
  have hwidth : w.width = (i - w.start) + ((w.stop - (i + 1)) + 1) := by
    unfold width
    omega
  unfold slice
  rw [hwidth, List.take_add, List.drop_drop, show w.start + (i - w.start) = i by omega,
    List.drop_eq_getElem_cons hlt, hget, List.take_succ_cons]
  rfl

/-- The only way to divide the window is at one of its places. -/
theorem Within.slice_eq_append_cons_iff (hw : w.Within tokens) {pre post : List Token}
    {t : Token} :
    w.slice tokens = pre ++ t :: post ↔
      ∃ i, w.start ≤ i ∧ i < w.stop ∧ tokens[i]? = some t ∧
        (Window.mk w.start i).slice tokens = pre ∧
        (Window.mk (i + 1) w.stop).slice tokens = post := by
  refine ⟨?_, ?_⟩
  · intro h
    have hlen : pre.length < w.width := by
      rw [← hw.length_slice, h, List.length_append, List.length_cons]
      omega
    have hlt : w.start + pre.length < w.stop := by
      simp only [width] at hlen
      omega
    have hsize : w.start + pre.length < tokens.size := Nat.lt_of_lt_of_le hlt hw.stop_le
    have hdiv := hw.slice_divide (Nat.le_add_right _ _) hlt (Array.getElem?_eq_getElem hsize)
    have hinner := within_mk (Nat.le_add_right w.start pre.length) (Nat.le_of_lt hsize)
    rw [h] at hdiv
    obtain ⟨hpre, hrest⟩ := List.append_inj hdiv (by simp [hinner.length_slice, width])
    obtain ⟨rfl, hpost⟩ := List.cons.inj hrest
    exact ⟨_, Nat.le_add_right _ _, hlt, Array.getElem?_eq_getElem hsize, hpre.symm, hpost.symm⟩
  · intro h
    obtain ⟨i, hi, hi', ht, rfl, rfl⟩ := h
    exact hw.slice_divide hi hi' ht

theorem Within.slice_eq_cons_iff (hw : w.Within tokens) {post : List Token} {t : Token} :
    w.slice tokens = t :: post ↔
      w.start < w.stop ∧ tokens[w.start]? = some t ∧
        (Window.mk (w.start + 1) w.stop).slice tokens = post := by
  refine ⟨?_, ?_⟩
  · intro h
    have h : w.slice tokens = [] ++ t :: post := h
    obtain ⟨i, hi, hi', ht, hpre, hpost⟩ := hw.slice_eq_append_cons_iff.1 h
    have hzero := (within_mk hi (Nat.le_trans (Nat.le_of_lt hi') hw.stop_le)).length_slice
    rw [hpre] at hzero
    have hstart : i = w.start := by
      simp only [List.length_nil, width] at hzero
      omega
    subst hstart
    exact ⟨hi', ht, hpost⟩
  · intro h
    obtain ⟨hlt, ht, rfl⟩ := h
    rw [hw.slice_divide (Nat.le_refl _) hlt ht, slice_empty, List.nil_append]

theorem Within.slice_eq_concat_iff (hw : w.Within tokens) {pre : List Token} {t : Token} :
    w.slice tokens = pre ++ [t] ↔
      w.start < w.stop ∧ tokens[w.stop - 1]? = some t ∧
        (Window.mk w.start (w.stop - 1)).slice tokens = pre := by
  refine ⟨?_, ?_⟩
  · intro h
    obtain ⟨i, hi, hi', ht, hpre, hpost⟩ := hw.slice_eq_append_cons_iff.1 h
    have hzero := (within_mk (Nat.succ_le_of_lt hi') hw.stop_le).length_slice
    rw [hpost] at hzero
    have hstop : i = w.stop - 1 := by
      simp only [List.length_nil, width] at hzero
      omega
    subst hstop
    exact ⟨by omega, ht, hpre⟩
  · intro h
    obtain ⟨hlt, ht, rfl⟩ := h
    rw [hw.slice_divide (by omega) (by omega) ht, show w.stop - 1 + 1 = w.stop by omega,
      slice_empty]

theorem Within.start_lt_of_ne_nil (hw : w.Within tokens) (h : w.slice tokens ≠ []) :
    w.start < w.stop := by
  have hlen := hw.length_slice
  have hpos := List.length_pos_iff.2 h
  simp only [width] at hlen
  omega

theorem part?_eq_some_iff {start stop : Nat} {v : w.Part} :
    w.part? start stop = some v ↔ v.1 = ⟨start, stop⟩ := by
  unfold part?
  refine ⟨?_, ?_⟩
  · intro h
    split at h
    · rw [← Option.some.inj h]
    · contradiction
  · intro h
    have hv := v.2
    rw [h] at hv
    rw [dif_pos hv]
    exact congrArg some (Subtype.ext h.symm)

/-- A narrower window is a part, with the tokens that it has anyway. -/
theorem exists_part {start stop : Nat} {ts : List Token} (h : start ≤ stop)
    (h' : stop ≤ tokens.size) (hlt : stop - start < w.stop - w.start)
    (hslice : (Window.mk start stop).slice tokens = ts) :
    ∃ v : w.Part, v.1 = ⟨start, stop⟩ ∧ v.1.Within tokens ∧ v.1.slice tokens = ts :=
  ⟨⟨⟨start, stop⟩, hlt⟩, rfl, within_mk h h', hslice⟩

end Window

end Branchwise
