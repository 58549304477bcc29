/-
Runs that stop at the first thing they refuse.

A tree is compiled name by name and a list of points is read text by text.  Both have things to accept
in a fixed order; if each is accepted there is a result, and if not, the error is about the first that
is not.  `StopsAtFirst` says this of a run and a list of things.  Running one thing after another puts
their lists one behind the other, so the order in which a program looks at its input can be read off
how it is put together.
-/
import Branchwise.Proofs.Failure

namespace Branchwise

variable {ι α β γ ε : Type}

/-- The first of the things in a row that is not accepted. -/
def FirstRefused (Accepted : ι → Prop) (xs : List ι) (x : ι) : Prop :=
  ∃ before after, xs = before ++ x :: after ∧ (∀ y ∈ before, Accepted y) ∧ ¬ Accepted x

namespace FirstRefused

variable {Accepted : ι → Prop} {xs ys : List ι} {x y : ι}

theorem head (h : ¬ Accepted x) (xs : List ι) : FirstRefused Accepted (x :: xs) x :=
  ⟨[], xs, rfl, nofun, h⟩

theorem not_forall (h : FirstRefused Accepted xs x) : ¬ ∀ y ∈ xs, Accepted y := by
  obtain ⟨before, after, rfl, -, hx⟩ := h
  intro hall
  exact hx (hall x (by simp))

theorem append_right (h : FirstRefused Accepted xs x) (ys : List ι) :
    FirstRefused Accepted (xs ++ ys) x := by
  obtain ⟨before, after, rfl, hbefore, hx⟩ := h
  exact ⟨before, after ++ ys, by simp, hbefore, hx⟩

theorem append_left (h : FirstRefused Accepted ys x) (hxs : ∀ y ∈ xs, Accepted y) :
    FirstRefused Accepted (xs ++ ys) x := by
  obtain ⟨before, after, rfl, hbefore, hx⟩ := h
  exact ⟨xs ++ before, after, by simp, List.forall_mem_append.2 ⟨hxs, hbefore⟩, hx⟩

theorem iff_find? [DecidablePred Accepted] :
    FirstRefused Accepted xs x ↔ xs.find? (fun y => ¬ Accepted y) = some x := by
  simp only [FirstRefused, List.find?_eq_some_iff_append, decide_eq_true_eq]
  refine ⟨?_, ?_⟩
  · rintro ⟨before, after, rfl, hbefore, hx⟩
    exact ⟨hx, before, after, rfl, fun y hy => by simpa using hbefore y hy⟩
  · rintro ⟨hx, before, after, rfl, hbefore⟩
    exact ⟨before, after, rfl, fun y hy => by simpa using hbefore y hy, hx⟩

theorem unique (h : FirstRefused Accepted xs x) (h' : FirstRefused Accepted xs y) : x = y := by
  classical
  rw [iff_find?] at h h'
  exact Option.some.inj (h.symm.trans h')

end FirstRefused

/-- The run accepts all the things in a row and has a result, or it ends with the error about the
first that it does not accept. -/
inductive StopsAtFirst (Accepted : ι → Prop) (report : ι → ε) : List ι → Except ε α → Prop
  | ok {xs : List ι} {a : α} (h : ∀ x ∈ xs, Accepted x) : StopsAtFirst Accepted report xs (.ok a)
  | error {xs : List ι} {x : ι} (h : FirstRefused Accepted xs x) :
      StopsAtFirst Accepted report xs (.error (report x))

namespace StopsAtFirst

variable {Accepted : ι → Prop} {report : ι → ε} {xs ys : List ι} {r : Except ε α}

theorem pure (a : α) : StopsAtFirst Accepted report [] (pure a : Except ε α) :=
  ok nofun

theorem prepend (h : StopsAtFirst Accepted report ys r) (hxs : ∀ x ∈ xs, Accepted x) :
    StopsAtFirst Accepted report (xs ++ ys) r := by
  cases h with
  | ok hys => exact ok (List.forall_mem_append.2 ⟨hxs, hys⟩)
  | error hys => exact error (hys.append_left hxs)

/-- What runs later is looked at later. -/
theorem bind {next : α → Except ε β} (h : StopsAtFirst Accepted report xs r)
    (hnext : ∀ a, StopsAtFirst Accepted report ys (next a)) :
    StopsAtFirst Accepted report (xs ++ ys) (r >>= next) := by
  cases h with
  | ok hxs => exact (hnext _).prepend hxs
  | error hxs => exact error (hxs.append_right ys)

/-- A row of runs, each about one thing. -/
theorem mapM {thing : γ → ι} {f : γ → Except ε α}
    (h : ∀ x, StopsAtFirst Accepted report [thing x] (f x)) (row : List γ) :
    StopsAtFirst Accepted report (row.map thing) (row.mapM f) := by
  induction row with
  | nil => exact pure []
  | cons x row ih =>
    rw [List.mapM_cons]
    have hrest (y : α) :
        StopsAtFirst Accepted report (row.map thing ++ []) (do let ys ← row.mapM f; return y :: ys) :=
      ih.bind fun ys => pure (y :: ys)
    simpa using (h x).bind hrest

theorem exists_ok_iff (h : StopsAtFirst Accepted report xs r) :
    (∃ a, r = .ok a) ↔ ∀ x ∈ xs, Accepted x := by
  cases h with
  | ok hxs => exact ⟨fun _ => hxs, fun _ => ⟨_, rfl⟩⟩
  | error hxs => exact ⟨nofun, fun hall => absurd hall hxs.not_forall⟩

theorem eq_error_iff (h : StopsAtFirst Accepted report xs r) {e : ε} :
    r = .error e ↔ ∃ x, FirstRefused Accepted xs x ∧ report x = e := by
  cases h with
  | ok hxs => exact ⟨nofun, fun ⟨x, hx, _⟩ => absurd hxs hx.not_forall⟩
  | error hxs =>
    refine ⟨fun he => ⟨_, hxs, Except.error.inj he⟩, ?_⟩
    rintro ⟨y, hy, rfl⟩
    rw [hxs.unique hy]

end StopsAtFirst

end Branchwise
