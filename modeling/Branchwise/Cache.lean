/-
Compiling each formula once.

Every text that was asked for has a slot.  The slot of a text that compiled keeps its function, and
whoever asks again gets that function.  The slot of a text that failed stays empty, so asking again
compiles again.  Functions are told apart by the order in which they were made: two look-ups
share a function exactly when they give the same place.
-/
import Branchwise.Formula

namespace Branchwise

/-- A function that is kept, with its place in the order in which functions were made. -/
structure FormulaCache.Shared where
  place : Nat
  function : Multifunction
deriving DecidableEq

/-- The slots of the texts that were asked for, each filled or still empty. -/
structure FormulaCache where
  slots : List (String × Option FormulaCache.Shared)
  distinct : (slots.map (·.1)).Nodup

namespace FormulaCache

/-- The cache before anything was asked for. -/
def empty : FormulaCache :=
  ⟨[], List.nodup_nil⟩

/-- The function in the slot of a formula, if there is a slot and it is filled. -/
def find? (cache : FormulaCache) (formula : String) : Option Shared :=
  (cache.slots.lookup formula).join

/-- Whether the formula has a function in the cache.  Asking opens no slot. -/
def contains (cache : FormulaCache) (formula : String) : Bool :=
  (cache.find? formula).isSome

/-- Empty slots do not count. -/
def size (cache : FormulaCache) : Nat :=
  cache.slots.countP (·.2.isSome)

/-- Whether no function is kept, whatever slots there are. -/
def isEmpty (cache : FormulaCache) : Bool :=
  cache.size = 0

/-- The cache with a slot for the formula, an empty one if it is new. -/
def withSlot (cache : FormulaCache) (formula : String) : FormulaCache :=
  if h : formula ∈ cache.slots.map (·.1) then cache
  else
    { slots := cache.slots ++ [(formula, none)]
      distinct := by
        rw [List.map_append, List.nodup_append]
        refine ⟨cache.distinct, List.pairwise_singleton _ _, fun a ha b hb hab => ?_⟩
        obtain rfl : b = formula := by simpa using hb
        exact h (hab ▸ ha) }

/-- The cache with this function in the slot of the formula. -/
def fill (cache : FormulaCache) (formula : String) (shared : Shared) : FormulaCache where
  slots := cache.slots.map fun slot =>
    (slot.1, if slot.1 = formula then some shared else slot.2)
  distinct := by
    rw [List.map_map]
    exact cache.distinct

/-- The function of a formula, made by `compile` if its slot is empty, and the cache after that. -/
def getOrMake (compile : String → Except FormulaError Multifunction) (cache : FormulaCache)
    (formula : String) : Except FormulaError Shared × FormulaCache :=
  let opened := cache.withSlot formula
  match opened.find? formula with
  | some shared => (.ok shared, opened)
  | none =>
    match compile formula with
    | .ok function =>
      let shared : Shared := ⟨opened.size, function⟩
      (.ok shared, opened.fill formula shared)
    | .error e => (.error e, opened)

/-- The function of a formula, compiled if its slot is empty, and the cache after that.  A formula
that fails to compile leaves its slot empty. -/
def getOrCompile (cache : FormulaCache) (formula : String) :
    Except FormulaError Shared × FormulaCache :=
  cache.getOrMake Formula.compile formula

end FormulaCache

end Branchwise
