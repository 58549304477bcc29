/-
Every call of a search, put on record.

`gives_resolve` is about the search that is asked for.  On its way a search calls itself for the
parts of the window, with a memo that other calls have filled, and so does every call after it.  A
recorded search takes the same steps (`resolve_eq_step`, `recorded`) and writes down each call as it
ends: the window, what was found and the memo at that moment.

Recording changes nothing, and everything on the record is right (`Follows`).  What carries the
proof is that no window in the memo is derivable (`Barren`), at the start of a call as at its end.
That a call only ever asks for parts of its own window keeps the memo to windows of the tokens, and
for these "nothing was found" and "nothing is derivable" are the same.
-/
import Branchwise.Proofs.Expr.Acceptance

namespace Branchwise

namespace Search

/-- The windows in which a search has found nothing. -/
abbrev Memo :=
  Std.TreeSet Window Window.order

/-- One call of a search, with the search for the parts of the window left open. -/
def step {m : Type → Type} [Monad m] (tokens : Array Token) (w : Window)
    (resolvePart : w.Part → OptionT (StateT Memo m) Expr) : OptionT (StateT Memo m) Expr := do
  if w.stop ≤ w.start ∨ (← get).contains w then failure
  let found := Rule.all.firstM fun rule =>
    (rule.shapes tokens w).firstM (Shape.build resolvePart)
  found <|> do
    modify (·.insert w)
    failure

/-- The search is this step over and over. -/
theorem resolve_eq_step (tokens : Array Token) (w : Window) :
    resolve tokens w = step tokens w fun part => resolve tokens part.1 := by
  rw [resolve]
  rfl

/-- A call that has ended. -/
structure Call where
  window : Window
  found : Option Expr
  /-- The memo that the call leaves behind. -/
  memo : Memo

/-- A search that keeps a record of the calls. -/
abbrev Recorded :=
  OptionT (StateT Memo (StateM (List Call)))

/-- The same search, with each call put on record as it ends. -/
def recorded (tokens : Array Token) (w : Window) : Recorded Expr := OptionT.mk do
  let found ← (step tokens w fun part => recorded tokens part.1).run
  let memo ← get
  modifyThe (List Call) (· ++ [⟨w, found, memo⟩])
  return found
termination_by w.width
decreasing_by exact part.2

/-! ### What is right -/

/-- The memo holds windows of the tokens that the grammar does not produce. -/
def Barren (tokens : Array Token) (memo : Memo) : Prop :=
  ∀ v ∈ memo, v.Within tokens ∧ ¬ Derivable (v.slice tokens)

/-- The call found what the rules find without a memo, and left a barren memo. -/
structure Call.Right (tokens : Array Token) (call : Call) : Prop where
  found : call.found = resolve? tokens call.window
  barren : Barren tokens call.memo

/-- From a barren memo and a right record, the recorded search ends as the search does, and memo
and record stay so.  What is on the record stays there. -/
def Follows {α : Type} (tokens : Array Token) (search : Recorded α) (plain : Search α) : Prop :=
  ∀ (memo : Memo) (calls : List Call), Barren tokens memo → (∀ call ∈ calls, call.Right tokens) →
    ∃ calls', (search.run.run memo).run calls = (plain.run memo, calls') ∧ calls <+: calls' ∧
      Barren tokens (plain.run memo).2 ∧ ∀ call ∈ calls', call.Right tokens

variable {tokens : Array Token} {w : Window} {α β : Type}

theorem barren_empty (tokens : Array Token) : Barren tokens ∅ := by
  intro v hv
  simp at hv

theorem not_derivable_iff (hw : w.Within tokens) :
    ¬ Derivable (w.slice tokens) ↔ resolve? tokens w = none := by
  rw [← resolve?_isSome_iff hw, Option.eq_none_iff_forall_ne_some, not_exists]

theorem Barren.honest {memo : Memo} (h : Barren tokens memo) : Honest tokens memo := by
  intro v hv
  obtain ⟨hin, hnone⟩ := h v hv
  exact (not_derivable_iff hin).1 hnone

theorem Barren.insert {memo : Memo} (h : Barren tokens memo) (hw : w.Within tokens)
    (hnone : resolve? tokens w = none) : Barren tokens (memo.insert w) := by
  intro v hv
  rcases Std.TreeSet.mem_insert.1 hv with hv | hv
  · rw [← Window.order_eq_iff.1 hv]
    exact ⟨hw, (not_derivable_iff hw).2 hnone⟩
  · exact h v hv

/-! ### Putting searches together -/

theorem follows_pure (a : α) : Follows tokens (pure a) (pure a) :=
  fun _ calls hmemo hcalls => ⟨calls, rfl, List.prefix_refl _, hmemo, hcalls⟩

theorem follows_failure : Follows tokens (failure : Recorded α) failure :=
  fun _ calls hmemo hcalls => ⟨calls, rfl, List.prefix_refl _, hmemo, hcalls⟩

theorem recorded_run_bind (search : Recorded α) (next : α → Recorded β) (memo : Memo)
    (calls : List Call) :
    ((search >>= next).run.run memo).run calls =
      match (search.run.run memo).run calls with
      | ((some a, memo'), calls') => ((next a).run.run memo').run calls'
      | ((none, memo'), calls') => ((none, memo'), calls') := by
  rw [OptionT.run_bind]
  simp only [Option.elimM, bind, StateT.bind, StateT.run]
  rcases search.run memo calls with ⟨⟨_ | a, memo'⟩, calls'⟩ <;> rfl

theorem recorded_run_orElse (search other : Recorded α) (memo : Memo) (calls : List Call) :
    ((search <|> other).run.run memo).run calls =
      match (search.run.run memo).run calls with
      | ((some a, memo'), calls') => ((some a, memo'), calls')
      | ((none, memo'), calls') => (other.run.run memo').run calls' := by
  rw [OptionT.run_orElse]
  simp only [Option.elimM, bind, StateT.bind, StateT.run]
  rcases search.run memo calls with ⟨⟨_ | a, memo'⟩, calls'⟩ <;> rfl

theorem Follows.bind {search : Recorded α} {plain : Search α} {next : α → Recorded β}
    {next' : α → Search β} (h : Follows tokens search plain)
    (hnext : ∀ a, Follows tokens (next a) (next' a)) :
    Follows tokens (search >>= next) (plain >>= next') := by
  intro memo calls hmemo hcalls
  obtain ⟨calls', hrun, hgrow, hmemo', hcalls'⟩ := h memo calls hmemo hcalls
  rw [recorded_run_bind, hrun, run_bind]
  rcases hplain : plain.run memo with ⟨_ | a, memo'⟩
  · rw [hplain] at hmemo'
    exact ⟨calls', rfl, hgrow, hmemo', hcalls'⟩
  · rw [hplain] at hmemo'
    obtain ⟨calls'', hrun', hgrow', hright⟩ := hnext a memo' calls' hmemo' hcalls'
    exact ⟨calls'', hrun', hgrow.trans hgrow', hright⟩

/-- The second search may count on the first having failed. -/
theorem Follows.orElse {search other : Recorded α} {plain plain' : Search α} {result : Option α}
    (h : Follows tokens search plain) (hplain : Gives tokens plain result)
    (hother : result = none → Follows tokens other plain') :
    Follows tokens (search <|> other) (plain <|> plain') := by
  intro memo calls hmemo hcalls
  obtain ⟨calls', hrun, hgrow, hmemo', hcalls'⟩ := h memo calls hmemo hcalls
  obtain ⟨hresult, -⟩ := hplain memo hmemo.honest
  rw [recorded_run_orElse, hrun, run_orElse]
  rcases hplain : plain.run memo with ⟨_ | a, memo'⟩
  · rw [hplain] at hmemo' hresult
    obtain ⟨calls'', hrun', hgrow', hright⟩ := hother hresult.symm memo' calls' hmemo' hcalls'
    exact ⟨calls'', hrun', hgrow.trans hgrow', hright⟩
  · rw [hplain] at hmemo'
    exact ⟨calls', rfl, hgrow, hmemo', hcalls'⟩

theorem Follows.firstM {γ : Type} {search : γ → Recorded α} {plain : γ → Search α}
    {result : γ → Option α} (xs : List γ) (h : ∀ x ∈ xs, Follows tokens (search x) (plain x))
    (hplain : ∀ x ∈ xs, Gives tokens (plain x) (result x)) :
    Follows tokens (xs.firstM search) (xs.firstM plain) := by
  induction xs with
  | nil => exact follows_failure
  | cons x xs ih =>
    obtain ⟨hx, hxs⟩ := List.forall_mem_cons.1 h
    obtain ⟨hplainx, hplainxs⟩ := List.forall_mem_cons.1 hplain
    have hrest := ih hxs hplainxs
    exact hx.orElse hplainx fun _ => hrest

/-- Only windows of the tokens are asked for. -/
theorem follows_build {resolve : w.Part → Recorded Expr} {resolve' : w.Part → Search Expr}
    {s : Shape w} (hs : s.Fits tokens)
    (h : ∀ part : w.Part, part.1.Within tokens → Follows tokens (resolve part) (resolve' part)) :
    Follows tokens (s.build resolve) (s.build resolve') := by
  cases s with
  | value token => exact follows_pure _
  | call function opening argument closing =>
    obtain ⟨-, -, -, hin, -⟩ := hs
    exact (h argument hin).bind fun _ => follows_pure _
  | call2 function opening first separator second closing =>
    obtain ⟨-, -, -, -, hin, hin', -⟩ := hs
    exact (h first hin).bind fun _ => (h second hin').bind fun _ => follows_pure _
  | unary operator operand =>
    obtain ⟨-, hin, -⟩ := hs
    exact (h operand hin).bind fun _ => follows_pure _
  | paren opening inner closing =>
    obtain ⟨-, -, hin, -⟩ := hs
    exact (h inner hin).bind fun _ => follows_pure _
  | binary left operator right =>
    obtain ⟨-, hin, hin', -⟩ := hs
    exact (h left hin).bind fun _ => (h right hin').bind fun _ => follows_pure _

/-! ### The search -/

theorem follows_get : Follows tokens (get : Recorded Memo) get :=
  fun _ calls hmemo hcalls => ⟨calls, rfl, List.prefix_refl _, hmemo, hcalls⟩

/-- A window may be remembered if nothing is found in it. -/
theorem follows_remember (hw : w.Within tokens) (hnone : resolve? tokens w = none) :
    Follows tokens (do modify (·.insert w); failure : Recorded Expr)
      (do modify (·.insert w); failure) :=
  fun _ calls hmemo hcalls => ⟨calls, rfl, List.prefix_refl _, hmemo.insert hw hnone, hcalls⟩

/-- **A step keeps up with the search if the calls for the parts do.** -/
theorem follows_step {resolvePart : w.Part → Recorded Expr} (hw : w.Within tokens)
    (h : ∀ part : w.Part, part.1.Within tokens →
      Follows tokens (resolvePart part) (resolve tokens part.1)) :
    Follows tokens (step tokens w resolvePart) (resolve tokens w) := by
  have hbuild (s : Shape w) : Gives tokens (s.build fun part => resolve tokens part.1)
      (s.build fun part => resolve? tokens part.1) :=
    gives_build (fun part => gives_resolve tokens part.1) s
  have hrule (rule : Rule) : Gives tokens
      ((rule.shapes tokens w).firstM (Shape.build fun part => resolve tokens part.1))
      ((rule.shapes tokens w).firstM (Shape.build fun part => resolve? tokens part.1)) :=
    Gives.firstM _ fun s _ => hbuild s
  have hrules : Gives tokens (tryRules tokens w) (resolve? tokens w) := by
    rw [resolve?]
    exact Gives.firstM Rule.all fun rule _ => hrule rule
  have hfollows : Follows tokens
      (Rule.all.firstM fun rule => (rule.shapes tokens w).firstM (Shape.build resolvePart))
      (tryRules tokens w) := by
    refine Follows.firstM Rule.all (fun rule _ => ?_) fun rule _ => hrule rule
    refine Follows.firstM _ (fun s hs => ?_) fun s _ => hbuild s
    exact follows_build (Rule.fits_of_mem_shapes hw hs) h
  have hremember := hfollows.orElse hrules fun hnone => follows_remember hw hnone
  rw [resolve_eq_step]
  refine follows_get.bind fun memo => ?_
  by_cases hw' : w.stop ≤ w.start ∨ memo.contains w
  · rw [if_pos hw', if_pos hw']
    exact follows_failure.bind fun _ => hremember
  · rw [if_neg hw', if_neg hw']
    exact hremember

/-- A call is put on record with its result and the memo it leaves. -/
theorem recorded_run (tokens : Array Token) (w : Window) (memo : Memo) (calls : List Call) :
    ((recorded tokens w).run.run memo).run calls =
      match ((step tokens w fun part => recorded tokens part.1).run.run memo).run calls with
      | ((found, memo'), calls') => ((found, memo'), calls' ++ [⟨w, found, memo'⟩]) := by
  rw [recorded]
  rfl

/-- **A recorded search ends as the search does, and all that it puts on record is right.** -/
theorem follows_recorded (tokens : Array Token) (w : Window) (hw : w.Within tokens) :
    Follows tokens (recorded tokens w) (resolve tokens w) := by
  intro memo calls hmemo hcalls
  have hstep := follows_step hw fun part hin => follows_recorded tokens part.1 hin
  obtain ⟨calls', hrun, hgrow, hmemo', hcalls'⟩ := hstep memo calls hmemo hcalls
  obtain ⟨hfound, -⟩ := gives_resolve tokens w memo hmemo.honest
  rw [recorded_run, hrun]
  refine ⟨_, rfl, hgrow.trans (List.prefix_append _ _), hmemo', ?_⟩
  refine List.forall_mem_append.2 ⟨hcalls', List.forall_mem_singleton.2 ?_⟩
  exact ⟨hfound, hmemo'⟩
termination_by w.width
decreasing_by exact part.2

/-- The call itself is the last one on its record. -/
theorem exists_call_of_recorded {memo : Memo} {calls calls' : List Call}
    {found : Option Expr × Memo}
    (h : ((recorded tokens w).run.run memo).run calls = (found, calls')) :
    ∃ call ∈ calls', call.window = w := by
  rw [recorded_run] at h
  obtain ⟨-, rfl⟩ := Prod.mk.inj h
  exact ⟨_, List.mem_append_right _ (List.mem_singleton_self _), rfl⟩

/-! ### One search after the other -/

/-- The searches for these windows, one after the other with one memo. -/
def session (tokens : Array Token) (ws : List Window) : StateM Memo (List (Option Expr)) :=
  ws.mapM fun w => (resolve tokens w).run

/-- The same searches with their record. -/
def recordedSession (tokens : Array Token) (ws : List Window) :
    StateT Memo (StateM (List Call)) (List (Option Expr)) :=
  ws.mapM fun w => (recorded tokens w).run

/-- The rest of a session starts with the memo that the first search leaves. -/
theorem run_session_cons (tokens : Array Token) (w : Window) (ws : List Window) (memo : Memo) :
    (session tokens (w :: ws)).run memo =
      (((resolve tokens w).run memo).1 ::
          ((session tokens ws).run ((resolve tokens w).run memo).2).1,
        ((session tokens ws).run ((resolve tokens w).run memo).2).2) := by
  rw [session, List.mapM_cons]
  rfl

theorem run_recordedSession_cons {w : Window} {memo : Memo} {found : Option Expr × Memo}
    {calls calls' : List Call}
    (h : ((recorded tokens w).run.run memo).run calls = (found, calls')) {ws : List Window}
    {results : List (Option Expr) × Memo} {calls'' : List Call}
    (hrest : ((recordedSession tokens ws).run found.2).run calls' = (results, calls'')) :
    ((recordedSession tokens (w :: ws)).run memo).run calls =
      ((found.1 :: results.1, results.2), calls'') := by
  rw [recordedSession, List.mapM_cons]
  show (match ((recorded tokens w).run.run memo).run calls with
    | (found, calls') =>
      match ((recordedSession tokens ws).run found.2).run calls' with
      | (results, calls'') => ((found.1 :: results.1, results.2), calls'')) = _
  rw [h]
  dsimp only
  rw [hrest]

/-- From a barren memo and a right record, every search of a session finds what the rules find
without a memo, and the record goes on with calls that are right. -/
theorem recordedSession_follows {ws : List Window} (hws : ∀ w ∈ ws, w.Within tokens) (memo : Memo)
    (calls : List Call) (hmemo : Barren tokens memo) (hcalls : ∀ call ∈ calls, call.Right tokens) :
    ∃ calls', ((recordedSession tokens ws).run memo).run calls =
        ((session tokens ws).run memo, calls') ∧
      ((session tokens ws).run memo).1 = ws.map (resolve? tokens) ∧
      calls <+: calls' ∧ (∀ w ∈ ws, ∃ call ∈ calls', call.window = w) ∧
      ∀ call ∈ calls', call.Right tokens := by
  induction ws generalizing memo calls with
  | nil => exact ⟨calls, rfl, rfl, List.prefix_refl _, List.forall_mem_nil _, hcalls⟩
  | cons w ws ih =>
    obtain ⟨hw, hrest⟩ := List.forall_mem_cons.1 hws
    obtain ⟨calls', hrun, hgrow, hmemo', hcalls'⟩ :=
      follows_recorded tokens w hw memo calls hmemo hcalls
    obtain ⟨hfound, -⟩ := gives_resolve tokens w memo hmemo.honest
    obtain ⟨calls'', hrun', hresults, hgrow', hasked, hcalls''⟩ := ih hrest _ calls' hmemo' hcalls'
    refine ⟨calls'', ?_, ?_, hgrow.trans hgrow', ?_, hcalls''⟩
    · rw [run_recordedSession_cons hrun hrun', run_session_cons]
    · rw [run_session_cons, List.map_cons, hresults, hfound]
    · obtain ⟨call, hcall, hwindow⟩ := exists_call_of_recorded hrun
      exact List.forall_mem_cons.2 ⟨⟨call, hgrow'.subset hcall, hwindow⟩, hasked⟩

/-- The windows that start with all the tokens, from the longest down. -/
def beginnings (tokens : Array Token) : List Window :=
  (List.range' 1 (tokens.size - 1)).reverse.map (Window.mk 0)

theorem within_of_mem_beginnings (hw : w ∈ ⟨0, tokens.size⟩ :: beginnings tokens) :
    w.Within tokens := by
  rcases List.mem_cons.1 hw with rfl | hw
  · exact ⟨Nat.zero_le _, Nat.le_refl _⟩
  · obtain ⟨n, hn, rfl⟩ := List.mem_map.1 hw
    have hlt := (List.mem_range'_1.1 (List.mem_reverse.1 hn)).2
    exact ⟨Nat.zero_le _, by dsimp only; omega⟩

/-- Trying windows until one is found is a session over the first of them. -/
theorem firstM_session (tokens : Array Token) (ns : List Nat) (memo : Memo) :
    ∃ k, ((ns.firstM fun n => do
        let _ ← resolve tokens ⟨0, n⟩
        return n : Search Nat).run memo).2 =
      ((session tokens ((ns.map (Window.mk 0)).take k)).run memo).2 := by
  induction ns generalizing memo with
  | nil => exact ⟨0, rfl⟩
  | cons n ns ih =>
    rw [List.firstM, run_orElse, run_bind]
    rcases hrun : (resolve tokens ⟨0, n⟩).run memo with ⟨_ | e, memo'⟩
    · obtain ⟨k, hk⟩ := ih memo'
      refine ⟨k + 1, ?_⟩
      rw [List.map_cons, List.take_succ_cons, run_session_cons, hrun]
      exact hk
    · refine ⟨1, ?_⟩
      rw [List.map_cons, List.take_succ_cons, run_session_cons, hrun]
      rfl

theorem longestBeginning_session (tokens : Array Token) (memo : Memo) :
    ∃ k, ((longestBeginning tokens).run memo).2 =
      ((session tokens ((beginnings tokens).take k)).run memo).2 := by
  obtain ⟨k, hk⟩ := firstM_session tokens (List.range' 1 (tokens.size - 1)).reverse memo
  refine ⟨k, ?_⟩
  rw [beginnings, ← hk, longestBeginning, run_orElse]
  split
  · next hrun => rw [hrun]
  · next hrun => rw [hrun]; rfl

/-- **A memo never shows.** Whatever windows are asked for, one after the other with one memo, every
call, also every call that another one makes, finds what the rules find without a memo, and no
window that ever gets into the memo is produced by the grammar.  What parsing asks is of this kind:
all the tokens, and then the beginnings from the longest down. -/
theorem memo_never_shows (tokens : Array Token) :
    (∀ ws : List Window, (∀ w ∈ ws, w.Within tokens) →
      ∃ calls, ((recordedSession tokens ws).run ∅).run [] = ((session tokens ws).run ∅, calls) ∧
        ((session tokens ws).run ∅).1 = ws.map (resolve? tokens) ∧
        (∀ w ∈ ws, ∃ call ∈ calls, call.window = w) ∧
        ∀ call ∈ calls, call.found = resolve? tokens call.window ∧
          ∀ v ∈ call.memo, v.Within tokens ∧ ¬ Derivable (v.slice tokens)) ∧
      ∃ k, ((longestBeginning tokens).run ((resolve tokens ⟨0, tokens.size⟩).run ∅).2).2 =
        ((session tokens (⟨0, tokens.size⟩ :: (beginnings tokens).take k)).run ∅).2 := by
  refine ⟨fun ws hws => ?_, ?_⟩
  · obtain ⟨calls, hrun, hresults, -, hasked, hright⟩ :=
      recordedSession_follows hws ∅ [] (barren_empty tokens) (List.forall_mem_nil _)
    exact ⟨calls, hrun, hresults, hasked, fun call hcall =>
      ⟨(hright call hcall).found, (hright call hcall).barren⟩⟩
  · obtain ⟨k, hk⟩ := longestBeginning_session tokens ((resolve tokens ⟨0, tokens.size⟩).run ∅).2
    refine ⟨k, ?_⟩
    rw [hk, run_session_cons]

/-- `--z)`, all of it and then its beginnings. -/
theorem memo_never_shows_chain :
    let tokens : Array Token :=
      #[⟨.unary, "-", 0⟩, ⟨.unary, "-", 1⟩, ⟨.letter, "z", 2⟩, ⟨.rightParen, ")", 3⟩]
    let ws : List Window := ⟨0, 4⟩ :: beginnings tokens
    (∀ w ∈ ws, w.Within tokens) ∧
      ∃ calls, ((recordedSession tokens ws).run ∅).run [] = ((session tokens ws).run ∅, calls) ∧
        ((session tokens ws).run ∅).1 = ws.map (resolve? tokens) ∧
        (∀ w ∈ ws, ∃ call ∈ calls, call.window = w) ∧
        ∀ call ∈ calls, call.found = resolve? tokens call.window ∧
          ∀ v ∈ call.memo, v.Within tokens ∧ ¬ Derivable (v.slice tokens) := by
  intro tokens ws
  have hws : ∀ w ∈ ws, w.Within tokens := fun w hw => within_of_mem_beginnings hw
  exact ⟨hws, (memo_never_shows tokens).1 ws hws⟩

/-- The calls for the parts of a window end before its own does. -/
example :
    let tokens : Array Token :=
      #[⟨.unary, "-", 0⟩, ⟨.unary, "-", 1⟩, ⟨.letter, "z", 2⟩, ⟨.rightParen, ")", 3⟩]
    (((recordedSession tokens [⟨0, 4⟩, ⟨0, 3⟩]).run ∅).run []).2.map (·.window) =
      [⟨2, 4⟩, ⟨1, 4⟩, ⟨0, 4⟩, ⟨2, 3⟩, ⟨1, 3⟩, ⟨0, 3⟩] := by cbv

end Search

end Branchwise
