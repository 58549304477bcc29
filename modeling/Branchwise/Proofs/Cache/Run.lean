/-
A cache over a whole run.

A run is any number of uses of a cache that starts out empty, and its history is what each of them
was answered.  The history says which texts looked up with success; the invariant is that these,
with the functions that were given out, are what the cache finds.  A single use keeps the invariant
(`Reflects.step`), so a run does.  Everything that can be seen of the cache at any moment of a run
is thereby read off the history up to there, and a text that failed has left no trace in it.

Two functions are the same object if they have the same place.  That different texts never share an
object is the second invariant (`Ordered`): places are handed out in ascending order.
-/
import Branchwise.Proofs.Cache.Slots
import Branchwise.Proofs.Failure

namespace Branchwise.FormulaCache

/-! ### Runs -/

/-- One use of a cache. -/
inductive Use
  | lookUp (formula : String)
  | contains (formula : String)
  | size
  | isEmpty

/-- What a use of a cache is answered. -/
inductive Answer
  | function (result : Except FormulaError Shared)
  | truth (holds : Bool)
  | number (n : Nat)

/-- A use with its answer, and the cache before it and after it. -/
structure Event where
  use : Use
  before : FormulaCache
  answer : Answer
  after : FormulaCache

/-- The event when a cache is used in this way. -/
def Use.event (cache : FormulaCache) (use : Use) : Event :=
  match use with
  | .lookUp formula =>
    let (result, after) := cache.getOrCompile formula
    ⟨use, cache, .function result, after⟩
  | .contains formula => ⟨use, cache, .truth (cache.contains formula), cache⟩
  | .size => ⟨use, cache, .number cache.size, cache⟩
  | .isEmpty => ⟨use, cache, .truth cache.isEmpty, cache⟩

theorem Use.before_event (cache : FormulaCache) (use : Use) : (use.event cache).before = cache := by
  cases use <;> rfl

/-- The history of a run. -/
def history (cache : FormulaCache) : List Use → List Event
  | [] => []
  | use :: rest => use.event cache :: history (use.event cache).after rest

/-- The cache at the end of a run. -/
def final (cache : FormulaCache) : List Use → FormulaCache
  | [] => cache
  | use :: rest => final (use.event cache).after rest

/-- The event is a look-up of this text that was given this function. -/
def Event.Gives (event : Event) (formula : String) (s : Shared) : Prop :=
  event.use = .lookUp formula ∧ event.answer = .function (.ok s)

/-- The event is a look-up of this text that failed with this error. -/
def Event.Fails (event : Event) (formula : String) (e : FormulaError) : Prop :=
  event.use = .lookUp formula ∧ event.answer = .function (.error e)

/-- The text that the event looked up with success. -/
def Event.succeeded? (event : Event) : Option String :=
  match event.use, event.answer with
  | .lookUp formula, .function (.ok _) => some formula
  | _, _ => none

/-- The texts that looked up with success. -/
def succeeded (events : List Event) : List String :=
  events.filterMap Event.succeeded?

theorem Event.succeeded?_eq_some_iff {event : Event} {formula : String} :
    event.succeeded? = some formula ↔ ∃ s, event.Gives formula s := by
  obtain ⟨use, before, answer, after⟩ := event
  unfold succeeded? Gives
  refine ⟨?_, ?_⟩
  · intro h
    split at h
    · rename_i s huse hanswer
      obtain rfl := Option.some.inj h
      exact ⟨s, huse, hanswer⟩
    · cases h
  · rintro ⟨s, huse, hanswer⟩
    dsimp only at huse hanswer
    rw [huse, hanswer]

theorem mem_succeeded_iff {events : List Event} {formula : String} :
    formula ∈ succeeded events ↔ ∃ s, ∃ event ∈ events, event.Gives formula s := by
  rw [succeeded, List.mem_filterMap]
  simp only [Event.succeeded?_eq_some_iff]
  refine ⟨?_, ?_⟩
  · rintro ⟨event, hevent, s, hs⟩
    exact ⟨s, event, hevent, hs⟩
  · rintro ⟨s, event, hevent, hs⟩
    exact ⟨event, hevent, s, hs⟩

/-! ### One use -/

/-- What can be seen of two caches is the same. -/
structure LooksLike (cache other : FormulaCache) : Prop where
  contains : ∀ formula, cache.contains formula = other.contains formula
  size : cache.size = other.size
  isEmpty : cache.isEmpty = other.isEmpty

theorem LooksLike.of_find?_eq {cache other : FormulaCache} (h : cache.find? = other.find?) :
    cache.LooksLike other := by
  have hsize := size_congr h
  refine ⟨fun formula => ?_, hsize, ?_⟩
  · rw [FormulaCache.contains, FormulaCache.contains, h]
  · rw [FormulaCache.isEmpty, FormulaCache.isEmpty, hsize]

/-- Whatever is found is what compiling gives. -/
def Honest (cache : FormulaCache) : Prop :=
  ∀ formula s, cache.find? formula = some s → Formula.compile formula = .ok s.function

theorem honest_empty : Honest empty :=
  fun _ _ h => absurd h nofun

/-- A look-up in an honest cache answers as compiling does, and keeps the cache honest. -/
theorem Honest.getOrCompile {cache : FormulaCache} (h : cache.Honest) (formula : String) :
    (cache.getOrCompile formula).1.map (·.function) = Formula.compile formula ∧
      (cache.getOrCompile formula).2.Honest := by
  unfold FormulaCache.getOrCompile
  rcases getOrMake_cases Formula.compile cache formula with
    ⟨s, hfind, hresult, hafter⟩ | ⟨f, hfind, hcompile, hresult, hafter, -⟩ |
      ⟨e, hfind, hcompile, hresult, hafter⟩
  · refine ⟨?_, ?_⟩
    · rw [hresult, h formula s hfind]
      rfl
    · intro text s' hs'
      rw [hafter] at hs'
      exact h text s' hs'
  · refine ⟨?_, ?_⟩
    · rw [hresult, hcompile]
      rfl
    · intro text s' hs'
      rw [hafter] at hs'
      by_cases htext : text = formula
      · rw [if_pos htext] at hs'
        obtain rfl := Option.some.inj hs'
        rw [htext, hcompile]
      · rw [if_neg htext] at hs'
        exact h text s' hs'
  · refine ⟨?_, ?_⟩
    · rw [hresult, hcompile]
      rfl
    · intro text s' hs'
      rw [hafter] at hs'
      exact h text s' hs'

/-- A look-up that fails cannot be seen in the cache afterwards. -/
theorem getOrCompile_error {cache : FormulaCache} {formula : String} {e : FormulaError}
    (h : (cache.getOrCompile formula).1 = .error e) :
    (cache.getOrCompile formula).2.LooksLike cache := by
  unfold getOrCompile at h ⊢
  rcases getOrMake_cases Formula.compile cache formula with
    ⟨s, -, hresult, -⟩ | ⟨f, -, -, hresult, -, -⟩ | ⟨_, -, -, -, hafter⟩
  · rw [hresult] at h
    cases h
  · rw [hresult] at h
    cases h
  · exact .of_find?_eq hafter

theorem LooksLike.of_fails {cache : FormulaCache} {use : Use} {formula : String} {e : FormulaError}
    (h : (use.event cache).Fails formula e) : (use.event cache).after.LooksLike cache := by
  cases use with
  | lookUp text => exact getOrCompile_error (Answer.function.inj h.2)
  | contains text => cases h.1
  | size => cases h.1
  | isEmpty => cases h.1

/-- Where nothing is found, the answer is that of compiling, whatever that is. -/
theorem getOrMake_of_find?_eq_none {cache : FormulaCache} {formula : String}
    (h : cache.find? formula = none) (compile : String → Except FormulaError Multifunction) :
    (cache.getOrMake compile formula).1.map (·.function) = compile formula := by
  rcases getOrMake_cases compile cache formula with
    ⟨s, hfound, -, -⟩ | ⟨f, -, hcompile, hresult, -, -⟩ | ⟨e, -, hcompile, hresult, -⟩
  · rw [h] at hfound
    cases hfound
  · rw [hresult, hcompile]
    rfl
  · rw [hresult, hcompile]
    rfl

/-- Places are below the size, and no two texts share one. -/
structure Ordered (cache : FormulaCache) : Prop where
  place_lt : ∀ formula s, cache.find? formula = some s → s.place < cache.size
  place_inj : ∀ formula formula' s s', cache.find? formula = some s →
    cache.find? formula' = some s' → s.place = s'.place → formula = formula'

/-- The next function goes behind all places that are taken. -/
theorem Ordered.getOrCompile {cache : FormulaCache} (h : cache.Ordered) (formula : String) :
    (cache.getOrCompile formula).2.Ordered := by
  unfold FormulaCache.getOrCompile
  have hsame {after : FormulaCache} (hafter : after.find? = cache.find?) : after.Ordered := by
    refine ⟨?_, ?_⟩
    · rw [hafter, size_congr hafter]
      exact h.place_lt
    · rw [hafter]
      exact h.place_inj
  rcases getOrMake_cases Formula.compile cache formula with
    ⟨s, -, -, hafter⟩ | ⟨f, -, -, -, hafter, hsize⟩ | ⟨e, -, -, -, hafter⟩
  · exact hsame hafter
  · refine ⟨?_, ?_⟩
    · intro text s hs
      rw [hafter] at hs
      rw [hsize]
      by_cases htext : text = formula
      · rw [if_pos htext] at hs
        obtain rfl := Option.some.inj hs
        exact Nat.lt_succ_self _
      · rw [if_neg htext] at hs
        exact Nat.lt_succ_of_lt (h.place_lt text s hs)
    · intro text text' s s' hs hs' hplace
      rw [hafter] at hs
      rw [hafter] at hs'
      by_cases htext : text = formula <;> by_cases htext' : text' = formula
      · rw [htext, htext']
      · -- the new place is not below the old size, and the other place is
        rw [if_pos htext] at hs
        rw [if_neg htext'] at hs'
        obtain rfl := Option.some.inj hs
        exact absurd hplace (Nat.ne_of_gt (h.place_lt text' s' hs'))
      · rw [if_neg htext] at hs
        rw [if_pos htext'] at hs'
        obtain rfl := Option.some.inj hs'
        exact absurd hplace (Nat.ne_of_lt (h.place_lt text s hs))
      · rw [if_neg htext] at hs
        rw [if_neg htext'] at hs'
        exact h.place_inj text text' s s' hs hs' hplace
  · exact hsame hafter

/-! ### The history and the cache -/

/-- What the cache finds is what was given out in the past. -/
structure Reflects (cache : FormulaCache) (past : List Event) : Prop where
  honest : cache.Honest
  ordered : cache.Ordered
  find?_iff : ∀ formula s,
    cache.find? formula = some s ↔ ∃ event ∈ past, event.Gives formula s

theorem reflects_empty : Reflects empty [] :=
  ⟨honest_empty, ⟨fun _ _ h => absurd h nofun, fun _ _ _ _ h => absurd h nofun⟩, by
    intro formula s
    rw [find?_empty]
    simp⟩

/-- One more use. -/
theorem Reflects.step {cache : FormulaCache} {past : List Event} (h : cache.Reflects past)
    (use : Use) : (use.event cache).after.Reflects (past ++ [use.event cache]) := by
  have hadd (formula : String) (s : Shared) :
      (∃ event ∈ past ++ [use.event cache], event.Gives formula s) ↔
        cache.find? formula = some s ∨ (use.event cache).Gives formula s := by
    rw [h.find?_iff]
    simp only [List.mem_append, List.mem_singleton]
    refine ⟨?_, ?_⟩
    · rintro ⟨event, hevent | rfl, hs⟩
      · exact Or.inl ⟨event, hevent, hs⟩
      · exact Or.inr hs
    · rintro (⟨event, hevent, hs⟩ | hs)
      · exact ⟨event, Or.inl hevent, hs⟩
      · exact ⟨_, Or.inr rfl, hs⟩
  have hquiet (hafter : (use.event cache).after = cache)
      (hgives : ∀ formula s, ¬(use.event cache).Gives formula s) :
      (use.event cache).after.Reflects (past ++ [use.event cache]) := by
    rw [hafter]
    refine ⟨h.honest, h.ordered, fun formula s => ?_⟩
    rw [hadd, or_iff_left (hgives formula s)]
  cases use with
  | lookUp text =>
    refine ⟨(h.honest.getOrCompile text).2, h.ordered.getOrCompile text, fun formula s => ?_⟩
    rw [hadd]
    have hgives : ((Use.lookUp text).event cache).Gives formula s ↔
        text = formula ∧ (cache.getOrCompile text).1 = .ok s := by
      simp [Event.Gives, Use.event]
    rw [hgives]
    show (cache.getOrCompile text).2.find? formula = some s ↔ _
    unfold getOrCompile
    rcases getOrMake_cases Formula.compile cache text with
      ⟨s', hfind, hresult, hafter⟩ | ⟨f, hfind, -, hresult, hafter, -⟩ | ⟨e, -, -, hresult, hafter⟩
    · rw [hresult, hafter]
      refine ⟨Or.inl, ?_⟩
      rintro (hs | ⟨rfl, hs⟩)
      · exact hs
      · rw [hfind, Except.ok.inj hs]
    · rw [hresult, hafter]
      by_cases htext : formula = text
      · subst htext
        rw [if_pos rfl, hfind]
        simp
      · rw [if_neg htext]
        simp [Ne.symm htext]
    · rw [hresult, hafter]
      simp
  | contains text => exact hquiet rfl fun _ _ h => nomatch h.1
  | size => exact hquiet rfl fun _ _ h => nomatch h.1
  | isEmpty => exact hquiet rfl fun _ _ h => nomatch h.1

/-- A whole run. -/
theorem Reflects.run {cache : FormulaCache} {past : List Event} (h : cache.Reflects past)
    (uses : List Use) : (final cache uses).Reflects (past ++ history cache uses) := by
  induction uses generalizing cache past with
  | nil => rwa [history, List.append_nil]
  | cons use rest ih =>
    have hrest := ih (h.step use)
    rwa [List.append_assoc] at hrest

/-- What happens in a run happens at the end of a shorter run. -/
theorem exists_uses_of_history_eq {cache : FormulaCache} {uses : List Use}
    {past future : List Event} {event : Event} (h : history cache uses = past ++ event :: future) :
    ∃ (earlier : List Use) (use : Use),
      past = history cache earlier ∧ event = use.event (final cache earlier) := by
  induction past generalizing cache uses with
  | nil =>
    cases uses with
    | nil => cases h
    | cons use rest => exact ⟨[], use, rfl, (List.cons.inj h).1.symm⟩
  | cons first past ih =>
    cases uses with
    | nil => cases h
    | cons use rest =>
      obtain ⟨hfirst, hrest⟩ := List.cons.inj h
      obtain ⟨earlier, use', hpast, hevent⟩ := ih hrest
      exact ⟨use :: earlier, use', by rw [hpast, history, hfirst], hevent⟩

/-! ### What can be seen of a run -/

/-- What can be seen of the cache is which texts looked up with success. -/
structure Shows (cache : FormulaCache) (past : List Event) : Prop where
  contains_iff : ∀ formula, cache.contains formula ↔ formula ∈ succeeded past
  size_eq : cache.size = (succeeded past).toFinset.card
  isEmpty_iff : cache.isEmpty ↔ cache.size = 0

theorem Reflects.shows {cache : FormulaCache} {past : List Event} (h : cache.Reflects past) :
    cache.Shows past := by
  have hcontains : ∀ formula, cache.contains formula ↔ formula ∈ succeeded past := by
    intro formula
    rw [contains_iff, mem_succeeded_iff]
    exact exists_congr fun s => h.find?_iff formula s
  refine ⟨hcontains, size_eq_card fun formula => ?_, ?_⟩
  · rw [List.mem_toFinset, hcontains]
  · rw [isEmpty, decide_eq_true_iff]

/-- The event answers as the history before it demands, and only look-ups change the cache. -/
def Event.AnswersTo (past : List Event) (event : Event) : Prop :=
  match event.use with
  | .lookUp formula =>
    ∃ result, event.answer = .function result ∧
      result.map (·.function) = Formula.compile formula
  | .contains formula =>
    event.answer = .truth (decide (formula ∈ succeeded past)) ∧ event.after = event.before
  | .size =>
    event.answer = .number (succeeded past).toFinset.card ∧ event.after = event.before
  | .isEmpty =>
    event.answer = .truth (decide ((succeeded past).toFinset.card = 0)) ∧
      event.after = event.before

theorem Reflects.answersTo {cache : FormulaCache} {past : List Event} (h : cache.Reflects past)
    (use : Use) : (use.event cache).AnswersTo past := by
  have hshows := h.shows
  cases use with
  | lookUp formula => exact ⟨_, rfl, (h.honest.getOrCompile formula).1⟩
  | contains formula =>
    refine ⟨congrArg Answer.truth ?_, rfl⟩
    rw [Bool.eq_iff_iff, decide_eq_true_iff]
    exact hshows.contains_iff formula
  | size => exact ⟨congrArg Answer.number hshows.size_eq, rfl⟩
  | isEmpty =>
    refine ⟨congrArg Answer.truth ?_, rfl⟩
    rw [isEmpty, hshows.size_eq]

/-- A text that failed in the past is still not found. -/
theorem Reflects.find?_eq_none {cache : FormulaCache} {past : List Event} (h : cache.Reflects past)
    {formula : String} {e : FormulaError} (hcompile : Formula.compile formula = .error e) :
    cache.find? formula = none := by
  cases hfind : cache.find? formula with
  | none => rfl
  | some s =>
    rw [h.honest formula s hfind] at hcompile
    cases hcompile

theorem Event.AnswersTo.compile_eq {past : List Event} {event : Event} (h : event.AnswersTo past)
    {formula : String} {e : FormulaError} (hfails : event.Fails formula e) :
    Formula.compile formula = .error e := by
  obtain ⟨huse, hanswer⟩ := hfails
  unfold AnswersTo at h
  rw [huse] at h
  obtain ⟨result, hresult, hcompile⟩ := h
  obtain rfl : Except.error e = result := Answer.function.inj (hanswer.symm.trans hresult)
  exact hcompile.symm

/-- A moment of a run: the cache is what the history up to there says. -/
theorem reflects_of_history_eq {uses : List Use} {past future : List Event} {event : Event}
    (h : history empty uses = past ++ event :: future) :
    event.AnswersTo past ∧ event.after.Reflects (past ++ [event]) ∧
      ∀ formula e, event.Fails formula e → event.after.LooksLike event.before := by
  obtain ⟨earlier, use, rfl, rfl⟩ := exists_uses_of_history_eq h
  have hbefore : (final empty earlier).Reflects (history empty earlier) :=
    reflects_empty.run earlier
  rw [use.before_event]
  exact ⟨hbefore.answersTo use, hbefore.step use, fun _ _ => LooksLike.of_fails⟩

/-- **What a cache does over a run.**  Every use is answered as the history before it demands, and
what can be seen of the cache after it is the history up to there.  A look-up that fails changes
nothing that can be seen, and from then on the text is compiled anew whenever it is looked up.
Look-ups share an object exactly if they are of one text. -/
theorem history_accounts (uses : List Use) :
    (∀ past event future, history empty uses = past ++ event :: future →
        event.AnswersTo past ∧ event.after.Shows (past ++ [event]) ∧
        (∀ formula e, event.Fails formula e → event.after.LooksLike event.before) ∧
        ∀ earlier ∈ past ++ [event], ∀ formula e, earlier.Fails formula e →
          ∀ compile, (event.after.getOrMake compile formula).1.map (·.function) =
            compile formula) ∧
      ∀ event ∈ history empty uses, ∀ event' ∈ history empty uses, ∀ formula formula' s s',
        event.Gives formula s → event'.Gives formula' s' →
          (s.place = s'.place ↔ formula = formula') ∧ (formula = formula' → s = s') := by
  refine ⟨?_, ?_⟩
  · intro past event future h
    obtain ⟨hanswers, hafter, hfailure⟩ := reflects_of_history_eq h
    refine ⟨hanswers, hafter.shows, hfailure, ?_⟩
    intro earlier hearlier formula e hfails compile
    have hmem : earlier ∈ history empty uses := by
      rw [h, List.append_cons]
      exact List.mem_append_left future hearlier
    obtain ⟨past', future', h'⟩ := List.append_of_mem hmem
    have hcompile : Formula.compile formula = .error e :=
      (reflects_of_history_eq h').1.compile_eq hfails
    exact getOrMake_of_find?_eq_none (hafter.find?_eq_none hcompile) compile
  · intro event hevent event' hevent' formula formula' s s' hs hs'
    have hlast : (final empty uses).Reflects (history empty uses) := reflects_empty.run uses
    have hfind := (hlast.find?_iff formula s).2 ⟨event, hevent, hs⟩
    have hfind' := (hlast.find?_iff formula' s').2 ⟨event', hevent', hs'⟩
    have hsame : formula = formula' → s = s' := by
      rintro rfl
      exact Option.some.inj (hfind.symm.trans hfind')
    refine ⟨⟨hlast.ordered.place_inj formula formula' s s' hfind hfind', ?_⟩, hsame⟩
    intro h
    rw [hsame h]

end Branchwise.FormulaCache
