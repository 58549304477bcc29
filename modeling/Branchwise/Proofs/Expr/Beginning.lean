/-
Where tokens that form no expression stop making sense.

When parsing fails, the beginnings are tried from the longest down, with the memo that the failed
search left.  The memo is honest, so each beginning is found exactly if the grammar produces it, and
the first that is found is the longest.  An error is thereby pinned down by the grammar alone
(`parse_eq_error_iff`).
-/
import Branchwise.Proofs.Expr.Relabel
import Branchwise.Proofs.Failure

namespace Branchwise

/-- The first `k` tokens are the longest beginning, short of all the tokens, that is an
expression; where `k` is zero there is none. -/
structure IsLongestBeginning (ts : List Token) (k : Nat) : Prop where
  derivable : 0 < k → k < ts.length ∧ Derivable (ts.take k)
  longest : ∀ n, k < n → n < ts.length → ¬ Derivable (ts.take n)

theorem IsLongestBeginning.le {ts : List Token} {k k' : Nat} (h : IsLongestBeginning ts k)
    (h' : IsLongestBeginning ts k') : k ≤ k' := by
  by_contra hlt
  obtain ⟨hshort, hderivable⟩ := h.derivable (by omega)
  exact h'.longest k (by omega) hshort hderivable

theorem IsLongestBeginning.unique {ts : List Token} {k k' : Nat} (h : IsLongestBeginning ts k)
    (h' : IsLongestBeginning ts k') : k = k' :=
  Nat.le_antisymm (h.le h') (h'.le h)

/-- There is a token behind the longest beginning, unless there are no tokens. -/
theorem IsLongestBeginning.lt_length {ts : List Token} {k : Nat} (h : IsLongestBeginning ts k)
    (hts : ts ≠ []) : k < ts.length := by
  by_cases hpos : 0 < k
  · exact (h.derivable hpos).1
  · have hlength := List.length_pos_of_ne_nil hts
    omega

/-- An operator and a value would go on for an expression, even where nothing follows them. -/
theorem IsLongestBeginning.not_isValue {ts : List Token} {k : Nat} {op v : Token}
    (h : IsLongestBeginning ts k) (hts : ¬ Derivable ts) (hpos : 0 < k)
    (hop : ts[k]? = some op) (hoperator : op.IsOperator) (hv : ts[k + 1]? = some v) :
    ¬ v.isValue := by
  intro hvalue
  have htake : ts.take (k + 2) = ts.take k ++ op :: [v] := by
    rw [List.take_add_one, List.take_add_one, hop, hv]
    simp
  have hlonger : Derivable (ts.take (k + 2)) := by
    rw [htake]
    exact .binary hoperator (h.derivable hpos).2 (.value hvalue)
  by_cases hlt : k + 2 < ts.length
  · exact h.longest (k + 2) (by omega) hlt hlonger
  · rw [List.take_of_length_le (by omega)] at hlonger
    exact hts hlonger

/-! ### The beginnings that are tried -/

namespace Search

/-- Trying down from `bound` stops at the largest number at which something is found. -/
theorem exists_firstM_eq {α : Type} (find? : Nat → Option α) (bound : Nat) :
    ∃ k, ((List.range' 1 bound).reverse.firstM (fun n => find? n >>= fun _ => some n) <|> some 0) =
        some k ∧
      (0 < k → k ≤ bound ∧ ∃ a, find? k = some a) ∧ ∀ n, k < n → n ≤ bound → find? n = none := by
  rw [firstM_eq_findSome?]
  induction bound with
  | zero => exact ⟨0, rfl, by omega, by omega⟩
  | succ bound ih =>
    rw [List.range'_1_concat, List.reverse_concat, List.findSome?_cons]
    cases hfind : find? (1 + bound) with
    | some a =>
      refine ⟨1 + bound, rfl, fun _ => ⟨by omega, a, hfind⟩, by omega⟩
    | none =>
      obtain ⟨k, hk, hfound, hrest⟩ := ih
      refine ⟨k, hk, fun hpos => ?_, fun n hn hle => ?_⟩
      · obtain ⟨hle, hsome⟩ := hfound hpos
        exact ⟨by omega, hsome⟩
      · rcases Nat.lt_or_eq_of_le hle with hlt | rfl
        · exact hrest n hn (by omega)
        · rwa [Nat.add_comm]

theorem gives_longestBeginning (tokens : Array Token) :
    ∃ k, Gives tokens (longestBeginning tokens) (some k) ∧
      IsLongestBeginning tokens.toList k := by
  obtain ⟨k, hk, hfound, hrest⟩ :=
    exists_firstM_eq (fun n => resolve? tokens ⟨0, n⟩) (tokens.size - 1)
  have hslice (n : Nat) : (Window.mk 0 n).slice tokens = tokens.toList.take n := by
    simp [Window.slice, Window.width]
  have hresolve {n : Nat} (hn : n ≤ tokens.size) :
      (∃ e, resolve? tokens ⟨0, n⟩ = some e) ↔ Derivable (tokens.toList.take n) := by
    rw [resolve?_isSome_iff (Window.within_mk (Nat.zero_le n) hn), hslice]
  refine ⟨k, ?_, ?_, ?_⟩
  · rw [← hk]
    refine Gives.orElse (Gives.firstM _ fun n _ => ?_) fun _ => gives_pure 0
    exact (gives_resolve tokens ⟨0, n⟩).bind fun _ => gives_pure n
  · intro hpos
    obtain ⟨hle, hsome⟩ := hfound hpos
    rw [Array.length_toList]
    exact ⟨by omega, (hresolve (by omega)).1 hsome⟩
  · intro n hn hlt hderivable
    rw [Array.length_toList] at hlt
    obtain ⟨e, he⟩ := (hresolve (by omega)).2 hderivable
    rw [hrest n hn (by omega)] at he
    cases he

end Search

/-! ### The error of a sequence of tokens -/

theorem isLongestBeginning_of_parse {ts : List Token} {c : IncompleteExpression}
    (h : parse ts = .error c) :
    IsLongestBeginning ts c.consumed ∧ c.unread = ts[c.consumed]? := by
  obtain ⟨k, hgives, hk⟩ := Search.gives_longestBeginning ts.toArray
  obtain ⟨-, hhonest⟩ := Search.gives_resolve ts.toArray ⟨0, ts.toArray.size⟩ ∅
    (Search.honest_empty _)
  unfold parse at h
  rcases hrun : OptionT.run (Search.resolve ts.toArray ⟨0, ts.toArray.size⟩) ∅ with ⟨_ | e, memo⟩
  · rw [hrun] at hhonest
    obtain ⟨hresult, -⟩ := hgives memo hhonest
    simp only [hrun, hresult] at h
    obtain rfl := Except.error.inj h
    exact ⟨hk, by simp⟩
  · simp only [hrun] at h
    cases h

/-- **Parsing fails exactly on what the grammar does not produce, and the error is the end of the
longest beginning that it produces.** -/
theorem parse_eq_error_iff {ts : List Token} {c : IncompleteExpression} :
    parse ts = .error c ↔
      ¬ Derivable ts ∧ IsLongestBeginning ts c.consumed ∧ c.unread = ts[c.consumed]? := by
  refine ⟨fun h => ⟨fun hderivable => ?_, isLongestBeginning_of_parse h⟩, ?_⟩
  · obtain ⟨e, he⟩ := exists_parse_iff.2 hderivable
    rw [h] at he
    cases he
  · rintro ⟨hderivable, hbeginning, hunread⟩
    cases hparse : parse ts with
    | ok e => exact absurd (exists_parse_iff.1 ⟨e, hparse⟩) hderivable
    | error c' =>
      obtain ⟨hbeginning', hunread'⟩ := isLongestBeginning_of_parse hparse
      obtain ⟨consumed, unread⟩ := c
      obtain ⟨consumed', unread'⟩ := c'
      obtain rfl : consumed = consumed' := hbeginning.unique hbeginning'
      obtain rfl : unread = unread' := hunread.trans hunread'.symm
      rfl

/-! ### What the place of the error goes by -/

/-- The error with its token relabelled. -/
def IncompleteExpression.relabel (f : Token → Token) (c : IncompleteExpression) :
    IncompleteExpression :=
  ⟨c.consumed, c.unread.map f⟩

section Relabel

variable {f : Token → Token} (hf : Token.Keeps f)
include hf

theorem derivable_map_iff {ts : List Token} : Derivable (ts.map f) ↔ Derivable ts := by
  rw [derivable_iff_exists_tree, derivable_iff_exists_tree]
  refine ⟨?_, ?_⟩
  · intro h
    obtain ⟨e, hgram, htokens⟩ := h
    obtain ⟨e', rfl, rfl⟩ := Expr.exists_relabel htokens.symm
    exact ⟨e', (Expr.grammatical_relabel hf e').1 hgram, rfl⟩
  · intro h
    obtain ⟨e, hgram, rfl⟩ := h
    exact ⟨e.relabel f, (Expr.grammatical_relabel hf e).2 hgram, Expr.tokens_relabel e⟩

theorem IsLongestBeginning.map {ts : List Token} {k : Nat} (h : IsLongestBeginning ts k) :
    IsLongestBeginning (ts.map f) k := by
  have htake (n : Nat) : Derivable ((ts.map f).take n) ↔ Derivable (ts.take n) := by
    rw [← List.map_take, derivable_map_iff hf]
  refine ⟨fun hpos => ?_, fun n hn hlt => ?_⟩
  · rw [List.length_map, htake]
    exact h.derivable hpos
  · rw [List.length_map] at hlt
    rw [htake]
    exact h.longest n hn hlt

/-- **Relabelling commutes with parsing, also where parsing fails.** -/
theorem parse_map_eq_error_iff {ts : List Token} {c : IncompleteExpression} :
    parse (ts.map f) = .error c ↔ ∃ c', parse ts = .error c' ∧ c'.relabel f = c := by
  have hmap {c' : IncompleteExpression} (h : parse ts = .error c') :
      parse (ts.map f) = .error (c'.relabel f) := by
    obtain ⟨hderivable, hbeginning, hunread⟩ := parse_eq_error_iff.1 h
    refine parse_eq_error_iff.2 ⟨?_, hbeginning.map hf, ?_⟩
    · rwa [derivable_map_iff hf]
    · rw [IncompleteExpression.relabel, hunread, List.getElem?_map]
  refine ⟨fun h => ?_, ?_⟩
  · cases hparse : parse ts with
    | ok e =>
      rw [(parse_map_eq_ok_iff hf).2 ⟨e, hparse, rfl⟩] at h
      cases h
    | error c' => exact ⟨c', rfl, Except.error.inj ((hmap hparse).symm.trans h)⟩
  · rintro ⟨c', hc', rfl⟩
    exact hmap hc'

/-- Sequences with the same labels have trees with the same labels, or stop at the same place. -/
theorem parse_alike {ts us : List Token} (h : ts.map f = us.map f) :
    EndAlike (fun c c' => c.relabel f = c'.relabel f)
      (fun e e' => e.Grammatical ∧ e'.Grammatical ∧ e.relabel f = e'.relabel f)
      (parse ts) (parse us) := by
  cases hts : parse ts with
  | ok e =>
    have hmap : parse (us.map f) = .ok (e.relabel f) := by
      rw [← h]
      exact (parse_map_eq_ok_iff hf).2 ⟨e, hts, rfl⟩
    obtain ⟨e', hus, he⟩ := (parse_map_eq_ok_iff hf).1 hmap
    rw [hus]
    exact .ok ⟨(parse_sound hts).1, (parse_sound hus).1, he.symm⟩
  | error c =>
    have hmap : parse (us.map f) = .error (c.relabel f) := by
      rw [← h]
      exact (parse_map_eq_error_iff hf).2 ⟨c, hts, rfl⟩
    obtain ⟨c', hus, hc⟩ := (parse_map_eq_error_iff hf).1 hmap
    rw [hus]
    exact .error hc.symm

end Relabel

end Branchwise
