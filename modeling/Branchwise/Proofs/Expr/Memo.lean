/-
The memo of a search does not show in its results.

`Search.resolve` and `resolve?` follow the same rules; the first also carries the windows that
failed so far and gives up on them at once.  That is right as long as the memo is honest: it
holds only windows without an expression.  `Gives` says of a search that from any honest memo
it has a certain result and leaves an honest memo.  Each way of putting searches together
keeps this, so it holds of the whole search, whatever it was asked about before.
-/
import Branchwise.Expr.Parse

namespace Branchwise

private theorem guard_eq_none {p : Prop} [Decidable p] (h : ¬ p) :
    (guard p : Option Unit) = none :=
  if_neg h

/-- No rule makes anything of an empty window. -/
theorem Rule.shapes_of_stop_le {tokens : Array Token} {w : Window} (h : w.stop ≤ w.start)
    (rule : Rule) : rule.shapes tokens w = [] := by
  have hwidth : w.width = 0 := Nat.sub_eq_zero_of_le h
  cases rule with
  | value =>
    rw [shapes, valueShape?, guard_eq_none (by omega)]
    rfl
  | call =>
    rw [shapes, callShape?, callFrame?, guard_eq_none (by omega), hwidth]
    rfl
  | unary =>
    rw [shapes, unaryShape?, guard_eq_none (by omega)]
    rfl
  | paren =>
    rw [shapes, parenShape?, guard_eq_none (by omega)]
    rfl
  | binary => simp [shapes, splits, placesOf, operators, hwidth]

theorem resolve?_of_stop_le {tokens : Array Token} {w : Window} (h : w.stop ≤ w.start) :
    resolve? tokens w = none := by
  rw [resolve?]
  simp only [Rule.shapes_of_stop_le h]
  rfl

namespace Search

/-- Only windows without an expression are in the memo. -/
def Honest (tokens : Array Token) (memo : Std.TreeSet Window Window.order) : Prop :=
  ∀ w ∈ memo, resolve? tokens w = none

/-- From an honest memo the search has this result, and it leaves an honest memo. -/
def Gives {α : Type} (tokens : Array Token) (search : Search α) (result : Option α) : Prop :=
  ∀ memo, Honest tokens memo →
    (search.run memo).1 = result ∧ Honest tokens (search.run memo).2

theorem honest_empty (tokens : Array Token) : Honest tokens ∅ := by
  intro w hw
  simp at hw

theorem Honest.insert {tokens : Array Token} {memo : Std.TreeSet Window Window.order}
    {w : Window} (h : Honest tokens memo) (hw : resolve? tokens w = none) :
    Honest tokens (memo.insert w) := by
  intro v hv
  rcases Std.TreeSet.mem_insert.1 hv with hv | hv
  · rw [← Window.order_eq_iff.1 hv]
    exact hw
  · exact h v hv

/-! ### Putting searches together -/

variable {tokens : Array Token} {α β : Type}

theorem run_bind (search : Search α) (next : α → Search β)
    (memo : Std.TreeSet Window Window.order) :
    (search >>= next).run memo =
      match search.run memo with
      | (some a, memo') => (next a).run memo'
      | (none, memo') => (none, memo') := by
  rw [OptionT.run_bind]
  simp only [Option.elimM, bind, StateT.bind]
  rcases search.run memo with ⟨_ | a, memo'⟩ <;> rfl

theorem run_orElse (search other : Search α) (memo : Std.TreeSet Window Window.order) :
    (search <|> other).run memo =
      match search.run memo with
      | (some a, memo') => (some a, memo')
      | (none, memo') => other.run memo' := by
  rw [OptionT.run_orElse]
  simp only [Option.elimM, bind, StateT.bind]
  rcases search.run memo with ⟨_ | a, memo'⟩ <;> rfl

theorem gives_pure (a : α) : Gives tokens (pure a) (some a) :=
  fun _ h => ⟨rfl, h⟩

theorem gives_failure : Gives tokens (failure : Search α) none :=
  fun _ h => ⟨rfl, h⟩

theorem Gives.bind {search : Search α} {result : Option α} {next : α → Search β}
    {next' : α → Option β} (h : Gives tokens search result)
    (hnext : ∀ a, Gives tokens (next a) (next' a)) :
    Gives tokens (search >>= next) (result >>= next') := by
  intro memo hmemo
  obtain ⟨hresult, hafter⟩ := h memo hmemo
  rw [run_bind]
  rcases hrun : search.run memo with ⟨_ | a, memo'⟩
  · rw [hrun] at hresult hafter
    subst hresult
    exact ⟨rfl, hafter⟩
  · rw [hrun] at hresult hafter
    subst hresult
    exact hnext a memo' hafter

/-- The second search may count on the first having failed. -/
theorem Gives.orElse {search other : Search α} {result result' : Option α}
    (h : Gives tokens search result) (hother : result = none → Gives tokens other result') :
    Gives tokens (search <|> other) (result <|> result') := by
  intro memo hmemo
  obtain ⟨hresult, hafter⟩ := h memo hmemo
  rw [run_orElse]
  rcases hrun : search.run memo with ⟨_ | a, memo'⟩
  · rw [hrun] at hresult hafter
    subst hresult
    exact hother rfl memo' hafter
  · rw [hrun] at hresult hafter
    subst hresult
    exact ⟨rfl, hafter⟩

theorem Gives.firstM {γ : Type} {search : γ → Search α} {result : γ → Option α} (xs : List γ)
    (h : ∀ x ∈ xs, Gives tokens (search x) (result x)) :
    Gives tokens (xs.firstM search) (xs.firstM result) := by
  induction xs with
  | nil => exact gives_failure
  | cons x xs ih =>
    have hrest := ih fun y hy => h y (List.mem_cons_of_mem x hy)
    exact (h x List.mem_cons_self).orElse fun _ => hrest

theorem gives_build {w : Window} {resolve : w.Part → Search Expr}
    {resolve' : w.Part → Option Expr} (h : ∀ part, Gives tokens (resolve part) (resolve' part))
    (s : Shape w) : Gives tokens (s.build resolve) (s.build resolve') := by
  cases s with
  | value token => exact gives_pure _
  | call function opening argument closing => exact (h argument).bind fun _ => gives_pure _
  | call2 function opening first separator second closing =>
    exact (h first).bind fun _ => (h second).bind fun _ => gives_pure _
  | unary operator operand => exact (h operand).bind fun _ => gives_pure _
  | paren opening inner closing => exact (h inner).bind fun _ => gives_pure _
  | binary left operator right =>
    exact (h left).bind fun _ => (h right).bind fun _ => gives_pure _

/-! ### The search -/

/-- All rules on a window, in order, with the search for its parts. -/
abbrev tryRules (tokens : Array Token) (w : Window) : Search Expr :=
  Rule.all.firstM fun rule =>
    (rule.shapes tokens w).firstM (Shape.build fun part => resolve tokens part.1)

/-- Look into the memo, search the window, remember a failure. -/
def remembering (w : Window) (search : Search Expr) : Search Expr := do
  if w.stop ≤ w.start ∨ (← get).contains w then failure
  search <|> do
    modify (·.insert w)
    failure

theorem resolve_eq_remembering (tokens : Array Token) (w : Window) :
    resolve tokens w = remembering w (tryRules tokens w) := by
  rw [resolve]
  rfl

theorem run_remembering (w : Window) (search : Search Expr)
    (memo : Std.TreeSet Window Window.order) :
    (remembering w search).run memo =
      if w.stop ≤ w.start ∨ memo.contains w then (none, memo)
      else match search.run memo with
        | (some e, memo') => (some e, memo')
        | (none, memo') => (none, memo'.insert w) := by
  rw [remembering, run_bind]
  show (if w.stop ≤ w.start ∨ memo.contains w then (_ : Search Expr) else _).run memo = _
  by_cases hw : w.stop ≤ w.start ∨ memo.contains w
  · rw [if_pos hw, if_pos hw]
    rfl
  · rw [if_neg hw, if_neg hw]
    refine (run_orElse search _ memo).trans ?_
    rcases search.run memo with ⟨_ | e, memo'⟩ <;> rfl

/-- An honest memo gives up only on windows without an expression, and what is remembered then is
honest again. -/
theorem Gives.remembering {w : Window} {search : Search Expr}
    (h : Gives tokens search (resolve? tokens w)) :
    Gives tokens (remembering w search) (resolve? tokens w) := by
  intro memo hmemo
  rw [run_remembering]
  by_cases hw : w.stop ≤ w.start ∨ memo.contains w
  · rw [if_pos hw]
    rcases hw with hempty | hknown
    · exact ⟨(resolve?_of_stop_le hempty).symm, hmemo⟩
    · exact ⟨(hmemo w (Std.TreeSet.contains_iff_mem.1 hknown)).symm, hmemo⟩
  · rw [if_neg hw]
    obtain ⟨hresult, hafter⟩ := h memo hmemo
    rcases hrun : search.run memo with ⟨_ | e, memo'⟩
    · rw [hrun] at hresult hafter
      exact ⟨hresult, hafter.insert hresult.symm⟩
    · rw [hrun] at hresult hafter
      exact ⟨hresult, hafter⟩

/-- **The search finds in any window what the rules find without a memo.** -/
theorem gives_resolve (tokens : Array Token) (w : Window) :
    Gives tokens (resolve tokens w) (resolve? tokens w) := by
  rw [resolve_eq_remembering]
  refine Gives.remembering ?_
  rw [resolve?]
  refine Gives.firstM _ fun rule _ => Gives.firstM _ fun s _ => ?_
  exact gives_build (fun part => gives_resolve tokens part.1) s
termination_by w.width
decreasing_by exact part.2

end Search

end Branchwise
