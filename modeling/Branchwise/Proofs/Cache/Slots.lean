/-
What a look-up does to the slots.

The slots know more than can be seen: a text that failed has a slot, and that slot is empty.  All
that can be seen of a cache is which function is found for which text.  `size_eq_card` says that
this determines the size too, because no text has two slots.  So `getOrMake_cases` can say what a
look-up does in terms of what is found before and after, and nothing behind it opens a slot again.
-/
import Mathlib.Data.Finset.Card
import Mathlib.Data.Finset.Dedup
import Branchwise.Cache

namespace Branchwise.FormulaCache

/-! ### Slots by their texts -/

/-- Where no key stands twice, each value is found under its key. -/
theorem lookup_eq_some_iff_mem {α β : Type} [DecidableEq α] {slots : List (α × β)}
    (h : (slots.map (·.1)).Nodup) {a : α} {b : β} :
    slots.lookup a = some b ↔ (a, b) ∈ slots := by
  induction slots with
  | nil => simp
  | cons slot slots ih =>
    obtain ⟨key, value⟩ := slot
    obtain ⟨hnew, hrest⟩ := List.nodup_cons.1 h
    rw [List.lookup_cons, List.mem_cons]
    by_cases hkey : a = key
    · subst hkey
      have habsent : (a, b) ∉ slots := fun hmem =>
        hnew (List.mem_map.2 ⟨(a, b), hmem, rfl⟩)
      simp [habsent, eq_comm]
    · have hne : (a == key) = false := by simpa using hkey
      simp [hne, hkey, ih hrest]

variable {cache : FormulaCache} {formula text : String} {s : Shared}

theorem find?_eq_some_iff_mem : cache.find? text = some s ↔ (text, some s) ∈ cache.slots := by
  rw [find?, Option.join_eq_some_iff, lookup_eq_some_iff_mem cache.distinct]

theorem contains_iff : cache.contains text ↔ ∃ s, cache.find? text = some s := by
  rw [contains, Option.isSome_iff_exists]

/-- **The size is the number of texts for which something is found.** -/
theorem size_eq_card {texts : Finset String} (h : ∀ text, text ∈ texts ↔ cache.contains text) :
    cache.size = texts.card := by
  have hnodup : ((cache.slots.filter (·.2.isSome)).map (·.1)).Nodup :=
    cache.distinct.sublist (List.filter_sublist.map _)
  have htexts : ((cache.slots.filter (·.2.isSome)).map (·.1)).toFinset = texts := by
    ext text
    rw [h, contains_iff, List.mem_toFinset, List.mem_map]
    refine ⟨?_, ?_⟩
    · rintro ⟨⟨_, kept⟩, hslot, rfl⟩
      obtain ⟨hslot, hkept⟩ := List.mem_filter.1 hslot
      obtain ⟨s, rfl⟩ := Option.isSome_iff_exists.1 hkept
      exact ⟨s, find?_eq_some_iff_mem.2 hslot⟩
    · rintro ⟨s, hs⟩
      exact ⟨(text, some s), List.mem_filter.2 ⟨find?_eq_some_iff_mem.1 hs, rfl⟩, rfl⟩
  rw [← htexts, List.toFinset_card_of_nodup hnodup, List.length_map, size,
    List.countP_eq_length_filter]

/-- The texts for which something is found. -/
theorem exists_texts (cache : FormulaCache) :
    ∃ texts : Finset String, ∀ text, text ∈ texts ↔ cache.contains text := by
  refine ⟨((cache.slots.map (·.1)).filter cache.contains).toFinset, fun text => ?_⟩
  rw [List.mem_toFinset, List.mem_filter]
  refine ⟨And.right, fun h => ⟨?_, h⟩⟩
  obtain ⟨s, hs⟩ := contains_iff.1 h
  exact List.mem_map_of_mem (find?_eq_some_iff_mem.1 hs)

/-- What is found is all that can be seen. -/
theorem size_congr {other : FormulaCache} (h : cache.find? = other.find?) :
    cache.size = other.size := by
  obtain ⟨texts, htexts⟩ := other.exists_texts
  have hsame : ∀ text, text ∈ texts ↔ cache.contains text := by
    intro text
    rw [htexts, contains, contains, h]
  rw [size_eq_card hsame, size_eq_card htexts]

/-! ### Opening and filling a slot -/

theorem find?_empty : empty.find? text = none :=
  rfl

/-- An empty slot cannot be seen. -/
theorem find?_withSlot : (cache.withSlot formula).find? = cache.find? := by
  funext text
  refine Option.ext fun s => ?_
  rw [find?_eq_some_iff_mem, find?_eq_some_iff_mem, withSlot]
  split
  · rfl
  · simp

theorem mem_withSlot : formula ∈ (cache.withSlot formula).slots.map (·.1) := by
  rw [withSlot]
  split
  · assumption
  · simp

theorem find?_fill (h : formula ∈ cache.slots.map (·.1)) (shared : Shared) :
    (cache.fill formula shared).find? text =
      if text = formula then some shared else cache.find? text := by
  refine Option.ext fun s => ?_
  rw [find?_eq_some_iff_mem, fill, List.mem_map]
  by_cases htext : text = formula
  · subst htext
    rw [if_pos rfl]
    refine ⟨?_, ?_⟩
    · rintro ⟨slot, -, hslot⟩
      obtain ⟨rfl, hkept⟩ := Prod.mk.inj hslot
      rwa [if_pos rfl] at hkept
    · intro hs
      obtain ⟨slot, hslot, rfl⟩ := List.mem_map.1 h
      exact ⟨slot, hslot, by rw [if_pos rfl, hs]⟩
  · rw [if_neg htext, find?_eq_some_iff_mem]
    refine ⟨?_, ?_⟩
    · rintro ⟨⟨_, kept⟩, hslot, heq⟩
      obtain ⟨rfl, hkept⟩ := Prod.mk.inj heq
      rw [if_neg htext] at hkept
      exact hkept ▸ hslot
    · intro hslot
      exact ⟨(text, some s), hslot, by rw [if_neg htext]⟩

/-- A text for which nothing was found makes the cache larger by one. -/
theorem size_fill (hslot : formula ∈ cache.slots.map (·.1)) (hnone : cache.find? formula = none)
    (shared : Shared) : (cache.fill formula shared).size = cache.size + 1 := by
  obtain ⟨texts, htexts⟩ := cache.exists_texts
  have hnew : formula ∉ texts := by
    rw [htexts, contains, hnone]
    exact nofun
  have hfilled : ∀ text,
      text ∈ insert formula texts ↔ (cache.fill formula shared).contains text := by
    intro text
    rw [Finset.mem_insert, htexts, contains, contains, find?_fill hslot]
    by_cases htext : text = formula <;> simp [htext]
  rw [size_eq_card hfilled, size_eq_card htexts, Finset.card_insert_of_notMem hnew]

/-! ### A look-up -/

/-- **All that a look-up does.**  It finds a function and changes nothing that can be seen; or it
makes a new one, and from then on finds it; or making one fails, and nothing is found afterwards
that was not found before. -/
theorem getOrMake_cases (compile : String → Except FormulaError Multifunction)
    (cache : FormulaCache) (formula : String) :
    (∃ s, cache.find? formula = some s ∧ (cache.getOrMake compile formula).1 = .ok s ∧
        (cache.getOrMake compile formula).2.find? = cache.find?) ∨
      (∃ f, cache.find? formula = none ∧ compile formula = .ok f ∧
        (cache.getOrMake compile formula).1 = .ok ⟨cache.size, f⟩ ∧
        (∀ text, (cache.getOrMake compile formula).2.find? text =
          if text = formula then some ⟨cache.size, f⟩ else cache.find? text) ∧
        (cache.getOrMake compile formula).2.size = cache.size + 1) ∨
      ∃ e, cache.find? formula = none ∧ compile formula = .error e ∧
        (cache.getOrMake compile formula).1 = .error e ∧
        (cache.getOrMake compile formula).2.find? = cache.find? := by
  have hopened : (cache.withSlot formula).find? = cache.find? := find?_withSlot
  have hsize : (cache.withSlot formula).size = cache.size := size_congr hopened
  unfold getOrMake
  dsimp only
  rw [hopened, hsize]
  cases hfind : cache.find? formula with
  | some s => exact .inl ⟨s, rfl, rfl, hopened⟩
  | none =>
    cases hcompile : compile formula with
    | ok f =>
      refine .inr (.inl ⟨f, rfl, rfl, rfl, ?_, ?_⟩)
      · intro text
        rw [find?_fill mem_withSlot, hopened]
      · rw [size_fill mem_withSlot (by rw [hopened, hfind]), hsize]
    | error e => exact .inr (.inr ⟨e, rfl, rfl, rfl, hopened⟩)

end Branchwise.FormulaCache
