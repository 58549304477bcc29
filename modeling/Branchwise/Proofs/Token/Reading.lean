/-
Reading a formula in two steps: cutting the text, then writing the implied products.

`Cuts` is the reading without its variable.  It follows `readFrom` token by token, but lets any
letter pass, so that two texts may be cut one after the other whatever letters they use.  That a
formula has one variable is a property of the tokens it is cut into (`OneVariable`), and
`tokenize_eq_ok_iff` puts the two together.
-/
import Branchwise.Proofs.Failure
import Branchwise.Proofs.Token.Characters

namespace Branchwise

open Text (Glyph isBlank strip)

namespace Token

/-- Reading from the first glyphs, after a token of the kind `previous`, gives the tokens and
leaves the last glyphs. -/
inductive Cuts : Option Kind → List Glyph → List Token → List Glyph → Prop
  | done {previous : Option Kind} {glyphs : List Glyph} : Cuts previous glyphs [] glyphs
  | token {previous : Option Kind} {g : Glyph} {rest rest' : List Glyph} {t : Token}
      {ts : List Token} {known : Option Variable}
      (ht : ofLexeme none previous g rest (Lexeme.scan g rest) = .ok (t, known))
      (hrest : Cuts (some t.kind) (rest.drop ((Lexeme.scan g rest).width - 1)) ts rest') :
      Cuts previous (g :: rest) (t :: ts) rest'

/-- All letters among the tokens are the same letter. -/
def OneVariable (ts : List Token) : Prop :=
  ∀ t ∈ ts, ∀ u ∈ ts, t.kind = .letter → u.kind = .letter → t.literal = u.literal

/-- The kind of the last token, if there is one, and the given kind otherwise. -/
def lastKind (previous : Option Kind) : List Token → Option Kind
  | [] => previous
  | t :: ts => lastKind (some t.kind) ts

theorem lastKind_concat (previous : Option Kind) (ts : List Token) (t : Token) :
    lastKind previous (ts ++ [t]) = some t.kind := by
  induction ts generalizing previous with
  | nil => rfl
  | cons u ts ih => exact ih (some u.kind)

/-! ### Cutting -/

theorem Cuts.append {previous : Option Kind} {xs ys zs : List Glyph} {ts us : List Token}
    (h : Cuts previous xs ts ys) (h' : Cuts (lastKind previous ts) ys us zs) :
    Cuts previous xs (ts ++ us) zs := by
  induction h with
  | done => exact h'
  | token ht _ ih => exact .token ht (ih h')

/-- Whether a minus after a token of this kind subtracts. -/
def endsValue (previous : Option Kind) : Bool :=
  previous.any fun k => k.isValue || k = .rightParen

theorem ofLexeme_congr_previous {previous previous' : Option Kind}
    (h : endsValue previous = endsValue previous') (g : Glyph) (rest : List Glyph)
    (lexeme : Lexeme) :
    ofLexeme none previous g rest lexeme = ofLexeme none previous' g rest lexeme := by
  unfold endsValue at h
  cases lexeme with
  | keyword word =>
    cases word with
    | operator name => cases name <;> simp only [ofLexeme, Keyword.kind, h]
    | _ => rfl
  | _ => rfl

/-- All that counts of what was read before is what it makes of a minus. -/
theorem Cuts.restart {previous : Option Kind} {xs ys : List Glyph} {ts : List Token}
    (h : Cuts previous xs ts ys) (previous' : Option Kind)
    (hprevious : endsValue previous = endsValue previous') :
    Cuts previous' xs ts ys := by
  cases h with
  | done => exact .done
  | token ht hrest =>
    rw [ofLexeme_congr_previous hprevious] at ht
    exact .token ht hrest

theorem map_char_of_map_eq {α : Type} {look : Glyph → α}
    (hlook : ∀ x y, look x = look y → x.char = y.char) {xs ys : List Glyph}
    (h : xs.map look = ys.map look) : xs.map Glyph.char = ys.map Glyph.char := by
  rw [← List.forall₂_eq_eq_eq, List.forall₂_map_left_iff, List.forall₂_map_right_iff] at h ⊢
  exact h.imp hlook

/-- Runs of glyphs that look the same are cut into tokens with the same labels, if a single token
is labelled by what its glyphs look like. -/
theorem Cuts.labels_congr {α β : Type} {look : Glyph → α} {label : Token → β} {P : Glyph → Prop}
    (hlook : ∀ x y, look x = look y → x.char = y.char)
    (hlabel : ∀ t u, label t = label u → t.kind = u.kind)
    (hread : ∀ (previous : Option Kind) (g g' : Glyph) (rest rest' : List Glyph) (lexeme : Lexeme)
      (t : Token) (known : Option Variable), (g :: rest).map look = (g' :: rest').map look →
      (∀ x ∈ g :: rest, P x) → (∀ x ∈ g' :: rest', P x) →
      ofLexeme none previous g rest lexeme = .ok (t, known) →
      ∃ t' known', ofLexeme none previous g' rest' lexeme = .ok (t', known') ∧ label t = label t')
    {previous : Option Kind} {xs ys zs : List Glyph} {ts : List Token} (h : Cuts previous xs ts zs)
    (hsame : xs.map look = ys.map look) (hxs : ∀ x ∈ xs, P x) (hys : ∀ y ∈ ys, P y) :
    ∃ us zs', Cuts previous ys us zs' ∧ zs.map look = zs'.map look ∧
      ts.map label = us.map label := by
  induction h generalizing ys with
  | done => exact ⟨[], ys, .done, hsame, rfl⟩
  | @token previous g rest rest' t ts known ht hrest ih =>
    cases ys with
    | nil => simp at hsame
    | cons g' ys =>
      obtain ⟨t', known', ht', htt'⟩ := hread _ _ _ _ _ _ _ _ hsame hxs hys ht
      have hdrop := congrArg (List.drop ((Lexeme.scan g' ys).width - 1)) (List.cons.inj hsame).2
      rw [← List.map_drop, ← List.map_drop] at hdrop
      rw [Lexeme.scan_congr (map_char_of_map_eq hlook hsame)] at ht' ih
      rw [hlabel t t' htt'] at ih
      obtain ⟨us, zs', hus, hzs, hmap⟩ := ih hdrop
        (fun x hx => hxs x (List.mem_cons_of_mem g (List.mem_of_mem_drop hx)))
        (fun y hy => hys y (List.mem_cons_of_mem g' (List.mem_of_mem_drop hy)))
      exact ⟨t' :: us, zs', .token ht' hus, hzs, by rw [List.map_cons, List.map_cons, htt', hmap]⟩

/-- **Cutting goes by characters.** -/
theorem Cuts.congr {previous : Option Kind} {xs ys zs : List Glyph} {ts : List Token}
    (h : Cuts previous xs ts zs) (hchars : xs.map Glyph.char = ys.map Glyph.char)
    (hxs : ∀ x ∈ xs, x.Clean) (hys : ∀ y ∈ ys, y.Clean) :
    ∃ us zs', Cuts previous ys us zs' ∧ zs.map Glyph.char = zs'.map Glyph.char ∧
      ts.map bare = us.map bare := by
  refine h.labels_congr (fun _ _ => id) (fun _ _ => kind_eq_of_bare_eq) ?_ hchars hxs hys
  intro previous g g' rest rest' lexeme t known hsame hclean hclean' ht
  obtain ⟨⟨t', known'⟩, ht', hbare, -⟩ :=
    (ofLexeme_alike rfl hsame hclean hclean' lexeme).exists_eq_ok ht
  exact ⟨t', known', ht', hbare⟩

/-! ### One variable -/

/-- The letters among the tokens are the known variable, if one is known. -/
def Agrees (known : Option Variable) (ts : List Token) : Prop :=
  ∀ v ∈ known, ∀ t ∈ ts, t.kind = .letter → t.literal = v.letter.toString

/-- The variable as it is known after the token at `g`. -/
def knownAfter (known : Option Variable) (g : Glyph) (t : Token) : Option Variable :=
  if t.kind = .letter then known.or (some ⟨g.char, g.offset⟩) else known

theorem kind_ne_letter_of_keyword (previous : Option Kind) (word : Keyword) :
    word.kind previous ≠ .letter := by
  unfold Keyword.kind
  repeat' split
  all_goals simp

theorem agrees_some_iff {v : Variable} {ts : List Token} :
    Agrees (some v) ts ↔ ∀ t ∈ ts, t.kind = .letter → t.literal = v.letter.toString := by
  simp [Agrees]

/-- Nothing but a letter asks for the variable. -/
theorem ofLexeme_of_ne_letter {lexeme : Lexeme} (h : lexeme ≠ .letter) (known : Option Variable)
    (previous : Option Kind) (g : Glyph) (rest : List Glyph) :
    ofLexeme known previous g rest lexeme =
      (fun read => (read.1, known)) <$> ofLexeme none previous g rest lexeme := by
  cases lexeme with
  | letter => exact absurd rfl h
  | numeral width =>
    unfold ofLexeme
    dsimp only
    split
    · rfl
    · rfl
  | _ => rfl

theorem kind_ne_letter_of_ofLexeme {known known' : Option Variable} {previous : Option Kind}
    {g : Glyph} {rest : List Glyph} {lexeme : Lexeme} {t : Token} (hlexeme : lexeme ≠ .letter)
    (h : ofLexeme known previous g rest lexeme = .ok (t, known')) : t.kind ≠ .letter := by
  rcases ofLexeme_ok_cases h with ⟨word, -, rfl, -⟩ | ⟨hletter, -⟩ | ⟨width, x, -, -, rfl, -⟩
  · exact kind_ne_letter_of_keyword previous word
  · exact absurd hletter hlexeme
  · exact nofun

/-- A letter is turned down only if the variable is another letter. -/
theorem ofLexeme_letter_eq_ok_iff {known known' : Option Variable} {previous : Option Kind}
    {g : Glyph} {rest : List Glyph} {t : Token} :
    ofLexeme known previous g rest .letter = .ok (t, known') ↔
      (∃ first, ofLexeme none previous g rest .letter = .ok (t, first)) ∧ Agrees known [t] ∧
        known' = knownAfter known g t := by
  unfold ofLexeme
  cases known with
  | none =>
    refine ⟨fun h => ?_, fun h => ?_⟩
    · obtain ⟨rfl, rfl⟩ := Prod.mk.inj (Except.ok.inj h)
      exact ⟨⟨_, rfl⟩, nofun, rfl⟩
    · obtain ⟨⟨first, hfirst⟩, -, rfl⟩ := h
      obtain ⟨rfl, -⟩ := Prod.mk.inj (Except.ok.inj hfirst)
      rfl
  | some v =>
    dsimp only
    rw [agrees_some_iff]
    by_cases hv : v.letter = g.char
    · rw [if_pos hv]
      refine ⟨fun h => ?_, fun h => ?_⟩
      · obtain ⟨rfl, rfl⟩ := Prod.mk.inj (Except.ok.inj h)
        exact ⟨⟨_, rfl⟩, by simp [hv], rfl⟩
      · obtain ⟨⟨first, hfirst⟩, -, rfl⟩ := h
        obtain ⟨rfl, -⟩ := Prod.mk.inj (Except.ok.inj hfirst)
        rfl
    · rw [if_neg hv]
      refine ⟨fun h => (by cases h), fun h => ?_⟩
      obtain ⟨⟨first, hfirst⟩, hagrees, -⟩ := h
      obtain ⟨rfl, -⟩ := Prod.mk.inj (Except.ok.inj hfirst)
      have hsame := hagrees _ (List.mem_singleton_self _) rfl
      exact absurd (by simpa using hsame.symm) hv

/-- What is read is read under any variable that it agrees with. -/
theorem ofLexeme_eq_ok_iff {known known' : Option Variable} {previous : Option Kind} {g : Glyph}
    {rest : List Glyph} {lexeme : Lexeme} {t : Token} :
    ofLexeme known previous g rest lexeme = .ok (t, known') ↔
      (∃ first, ofLexeme none previous g rest lexeme = .ok (t, first)) ∧ Agrees known [t] ∧
        known' = knownAfter known g t := by
  by_cases hlexeme : lexeme = .letter
  · subst hlexeme
    exact ofLexeme_letter_eq_ok_iff
  · rw [ofLexeme_of_ne_letter hlexeme, map_eq_ok_iff]
    refine ⟨fun h => ?_, fun h => ?_⟩
    · obtain ⟨⟨t', first⟩, hfirst, heq⟩ := h
      obtain ⟨rfl, rfl⟩ := Prod.mk.inj heq
      have hkind := kind_ne_letter_of_ofLexeme hlexeme hfirst
      exact ⟨⟨first, hfirst⟩, by simp [Agrees, hkind], by rw [knownAfter, if_neg hkind]⟩
    · obtain ⟨⟨first, hfirst⟩, -, rfl⟩ := h
      have hkind := kind_ne_letter_of_ofLexeme hlexeme hfirst
      exact ⟨_, hfirst, by rw [knownAfter, if_neg hkind]⟩

theorem oneVariable_cons_iff {t : Token} {ts : List Token} :
    OneVariable (t :: ts) ↔
      OneVariable ts ∧ (t.kind = .letter → ∀ u ∈ ts, u.kind = .letter → u.literal = t.literal) := by
  refine ⟨?_, ?_⟩
  · intro h
    exact ⟨fun u hu u' hu' => h u (by simp [hu]) u' (by simp [hu']),
      fun ht u hu hk => h u (by simp [hu]) t (by simp) hk ht⟩
  · rintro ⟨hts, ht⟩ u hu u' hu' hk hk'
    rcases List.mem_cons.1 hu with rfl | hmem <;> rcases List.mem_cons.1 hu' with rfl | hmem'
    · rfl
    · exact (ht hk u' hmem' hk').symm
    · exact ht hk' u hmem hk
    · exact hts u hmem u' hmem' hk hk'

/-- One variable among some tokens is one variable among fewer letters. -/
theorem OneVariable.of_subset {ts us : List Token} (h : OneVariable us)
    (hsub : ∀ t ∈ ts, t.kind = .letter → t ∈ us) : OneVariable ts :=
  fun t ht u hu hk hk' => h t (hsub t ht hk) u (hsub u hu hk') hk hk'

theorem OneVariable.append {ts us : List Token} (h : OneVariable ts) (h' : OneVariable us)
    (hboth : ∀ t ∈ ts, ∀ u ∈ us, t.kind = .letter → u.kind = .letter → t.literal = u.literal) :
    OneVariable (ts ++ us) := by
  intro t ht u hu hk hk'
  rcases List.mem_append.1 ht with ht | ht <;> rcases List.mem_append.1 hu with hu | hu
  · exact h t ht u hu hk hk'
  · exact hboth t ht u hu hk hk'
  · exact (hboth u hu t ht hk' hk).symm
  · exact h' t ht u hu hk hk'

/-- One variable in all is the variable known after the first token in the rest. -/
theorem oneVariable_and_agrees_cons_iff {known : Option Variable} {g : Glyph} {t : Token}
    {ts : List Token} (ht : Agrees known [t])
    (hletter : t.kind = .letter → t.literal = g.char.toString) :
    OneVariable (t :: ts) ∧ Agrees known (t :: ts) ↔
      OneVariable ts ∧ Agrees (knownAfter known g t) ts := by
  rw [oneVariable_cons_iff, knownAfter]
  split
  · have hliteral := hletter ‹_›
    cases known with
    | none => simp [Agrees, *]
    | some v =>
      rw [agrees_some_iff] at ht
      have hv : t.literal = v.letter.toString := ht t (by simp) ‹_›
      simp [agrees_some_iff, *]
  · cases known with
    | none => simp [Agrees, *]
    | some v => simp [agrees_some_iff, *]

theorem literal_of_ofLexeme {previous : Option Kind} {g : Glyph} {rest : List Glyph}
    {lexeme : Lexeme} {t : Token} {first : Option Variable}
    (h : ofLexeme none previous g rest lexeme = .ok (t, first)) (ht : t.kind = .letter) :
    t.literal = g.char.toString := by
  rcases ofLexeme_ok_cases h with ⟨word, -, rfl, -⟩ | ⟨-, rfl, -⟩ | ⟨width, x, -, -, rfl, -⟩
  · exact absurd ht (kind_ne_letter_of_keyword previous word)
  · rfl
  · cases ht

theorem cuts_nil_iff {previous : Option Kind} {ts : List Token} :
    Cuts previous [] ts [] ↔ ts = [] := by
  refine ⟨?_, ?_⟩
  · intro h
    cases h
    rfl
  · intro h
    subst h
    exact .done

theorem cuts_cons_iff {previous : Option Kind} {g : Glyph} {rest : List Glyph} {ts : List Token} :
    Cuts previous (g :: rest) ts [] ↔
      ∃ t us first, ts = t :: us ∧
        ofLexeme none previous g rest (Lexeme.scan g rest) = .ok (t, first) ∧
        Cuts (some t.kind) (rest.drop ((Lexeme.scan g rest).width - 1)) us [] := by
  refine ⟨?_, ?_⟩
  · intro h
    cases h with
    | token ht hrest => exact ⟨_, _, _, rfl, ht, hrest⟩
  · intro h
    obtain ⟨t, us, first, rfl, ht, hrest⟩ := h
    exact .token ht hrest

/-- **Reading succeeds exactly if the text can be cut into tokens with one variable.** -/
theorem mapM_readFrom_eq_ok_iff {known : Option Variable} {previous : Option Kind}
    {glyphs : List Glyph} {ts : List Token} :
    (readFrom known previous glyphs).mapM (·.result) = .ok ts ↔
      Cuts previous glyphs ts [] ∧ OneVariable ts ∧ Agrees known ts := by
  fun_induction readFrom known previous glyphs generalizing ts with
  | case1 known previous =>
    rw [cuts_nil_iff, List.mapM_nil]
    refine ⟨?_, ?_⟩
    · intro h
      obtain rfl : [] = ts := Except.ok.inj h
      simp [OneVariable, Agrees]
    · intro h
      obtain ⟨rfl, -⟩ := h
      rfl
  | case2 known previous g rest lexeme e =>
    rename_i he
    rw [mapM_cons_eq_ok_iff, cuts_cons_iff]
    refine ⟨?_, ?_⟩
    · intro h
      obtain ⟨_, ⟨⟩, -⟩ := h
    · intro h
      obtain ⟨⟨t, us, first, rfl, ht, -⟩, -, hagrees⟩ := h
      have hagrees' : Agrees known [t] := fun v hv u hu => hagrees v hv u (by simp_all)
      have hok := ofLexeme_eq_ok_iff.2 ⟨⟨first, ht⟩, hagrees', rfl⟩
      exact absurd (he.symm.trans hok) nofun
  | case3 known previous g rest lexeme t known' ht =>
    rename_i ih
    obtain ⟨⟨first, hfirst⟩, hagrees, rfl⟩ := ofLexeme_eq_ok_iff.1 ht
    have hcons (us : List Token) : OneVariable (t :: us) ∧ Agrees known (t :: us) ↔ _ :=
      oneVariable_and_agrees_cons_iff hagrees (literal_of_ofLexeme hfirst)
    rw [mapM_cons_eq_ok_iff, cuts_cons_iff]
    refine ⟨?_, ?_⟩
    · intro h
      obtain ⟨_, ⟨⟩, us, hus, rfl⟩ := h
      obtain ⟨hcuts, hvariable⟩ := ih.1 hus
      exact ⟨⟨t, us, first, rfl, hfirst, hcuts⟩, (hcons us).2 hvariable⟩
    · intro h
      obtain ⟨⟨t', us, first', rfl, ht', hcuts⟩, hvariable⟩ := h
      obtain ⟨rfl, -⟩ := Prod.mk.inj (Except.ok.inj (hfirst.symm.trans ht'))
      exact ⟨t, rfl, us, ih.2 ⟨hcuts, (hcons us).1 hvariable⟩, rfl⟩

/-! ### Implied products -/

/-- The tokens with the implied product before each value that follows a value. -/
def insertProducts (previous : Option Kind) : List Token → List Token
  | [] => []
  | t :: ts =>
    if t.isValue && previous.any (·.isValue) then
      impliedProduct t.offset :: t :: insertProducts (some t.kind) ts
    else t :: insertProducts (some t.kind) ts

/-- Writing the products leaves errors alone. -/
theorem mapM_withProducts (previous : Option Kind) (steps : List Step) :
    (withProducts previous steps).mapM (·.result) =
      insertProducts previous <$> steps.mapM (·.result) := by
  induction steps generalizing previous with
  | nil => rfl
  | cons step rest ih =>
    unfold withProducts
    cases h : step.result with
    | error e => simp [List.mapM_cons, h, bind, Except.bind, Functor.map, Except.map]
    | ok t =>
      simp only
      split <;> cases hrest : rest.mapM (·.result) <;>
        simp_all [List.mapM_cons, bind, Except.bind, Functor.map, Except.map, pure, Except.pure,
          insertProducts]

theorem insertProducts_cons {t : Token} (ht : ¬ t.isValue) (previous : Option Kind)
    (us : List Token) : insertProducts previous (t :: us) = t :: insertProducts none us := by
  have hkind : t.kind.isValue = false := by simpa [isValue] using ht
  cases us <;> simp [insertProducts, ht, hkind]

/-- A token that is no value keeps what is before it and what is behind it apart. -/
theorem insertProducts_append_cons {t : Token} (ht : ¬ t.isValue) (previous : Option Kind)
    (ts us : List Token) :
    insertProducts previous (ts ++ t :: us) =
      insertProducts previous ts ++ t :: insertProducts none us := by
  induction ts generalizing previous with
  | nil => exact insertProducts_cons ht previous us
  | cons u ts ih =>
    rw [List.cons_append, insertProducts, insertProducts, ih]
    split <;> rfl

theorem sublist_insertProducts (previous : Option Kind) (ts : List Token) :
    ts.Sublist (insertProducts previous ts) := by
  induction ts generalizing previous with
  | nil => exact List.Sublist.slnil
  | cons t ts ih =>
    unfold insertProducts
    split
    · exact ((ih (some t.kind)).cons_cons t).cons _
    · exact (ih (some t.kind)).cons_cons t

theorem mem_insertProducts {t : Token} {ts : List Token} (ht : t ∈ ts) (previous : Option Kind) :
    t ∈ insertProducts previous ts :=
  (sublist_insertProducts previous ts).subset ht

/-- What was not read is a product between two values. -/
theorem getElem?_insertProducts {previous : Option Kind} {ts : List Token} {k : Nat} {t : Token}
    (h : (insertProducts previous ts)[k]? = some t) :
    t ∈ ts ∨ (∃ offset, t = impliedProduct offset) ∧
      (∃ v, (insertProducts previous ts)[k + 1]? = some v ∧ v.isValue) ∧
      (k = 0 → previous.any (·.isValue)) := by
  induction ts generalizing previous k with
  | nil => simp [insertProducts] at h
  | cons u ts ih =>
    unfold insertProducts at h ⊢
    by_cases hdue : (u.isValue && previous.any (·.isValue)) = true
    · rw [if_pos hdue] at h ⊢
      obtain ⟨hvalue, hbehind⟩ := Bool.and_eq_true_iff.1 hdue
      match k, h with
      | 0, h => exact .inr ⟨⟨u.offset, (Option.some.inj h).symm⟩, ⟨u, rfl, hvalue⟩, fun _ => hbehind⟩
      | 1, h =>
        obtain rfl := Option.some.inj h
        exact .inl List.mem_cons_self
      | k + 2, h =>
        rcases ih h with hmem | ⟨hproduct, hnext, -⟩
        · exact .inl (List.mem_cons_of_mem u hmem)
        · exact .inr ⟨hproduct, hnext, by omega⟩
    · rw [if_neg hdue] at h ⊢
      match k, h with
      | 0, h =>
        obtain rfl := Option.some.inj h
        exact .inl List.mem_cons_self
      | k + 1, h =>
        rcases ih h with hmem | ⟨hproduct, hnext, -⟩
        · exact .inl (List.mem_cons_of_mem u hmem)
        · exact .inr ⟨hproduct, hnext, by omega⟩

/-- Products go by kinds, so they may be inserted before tokens are relabelled or after. -/
theorem map_insertProducts {f : Token → Token} (hkind : ∀ t, (f t).kind = t.kind)
    (hproduct : ∀ t, f (impliedProduct t.offset) = impliedProduct (f t).offset)
    (previous : Option Kind) (ts : List Token) :
    (insertProducts previous ts).map f = insertProducts previous (ts.map f) := by
  induction ts generalizing previous with
  | nil => rfl
  | cons t ts ih =>
    rw [List.map_cons, insertProducts, insertProducts, isValue, isValue, hkind, ← ih, ← hproduct]
    split <;> rfl

theorem map_bare_insertProducts (previous : Option Kind) (ts : List Token) :
    (insertProducts previous ts).map bare = insertProducts previous (ts.map bare) := by
  refine map_insertProducts keeps_bare.kind (fun t => ?_) previous ts
  have hoffset : t.bare.offset = 0 := by
    unfold bare
    split <;> rfl
  rw [hoffset]
  rfl

/-- One variable is one spelling of the letters, whatever becomes of the other tokens. -/
theorem oneVariable_map {f : Token → Token} (hkind : ∀ t, (f t).kind = t.kind)
    (hliteral : ∀ t : Token, t.kind = .letter → (f t).literal = t.literal) {ts : List Token} :
    OneVariable (ts.map f) ↔ OneVariable ts := by
  simp only [OneVariable, List.forall_mem_map, hkind]
  refine ⟨?_, ?_⟩
  · intro h t ht u hu hk hk'
    rw [← hliteral t hk, h t ht u hu hk hk', hliteral u hk']
  · intro h t ht u hu hk hk'
    rw [hliteral t hk, h t ht u hu hk hk', hliteral u hk']

theorem oneVariable_map_bare {ts : List Token} : OneVariable (ts.map bare) ↔ OneVariable ts :=
  oneVariable_map keeps_bare.kind fun t ht => by simp [bare, ht]

end Token

/-- **The tokens of a formula are what it is cut into, with the implied products.** -/
theorem tokenize_eq_ok_iff {formula : String} {ts : List Token} :
    tokenize formula = .ok ts ↔
      ∃ us, Token.Cuts none (Glyph.ofText formula.toList) us [] ∧ Token.OneVariable us ∧
        Token.insertProducts none us = ts := by
  rw [tokenize, Token.steps, Token.mapM_withProducts, map_eq_ok_iff]
  simp only [Token.mapM_readFrom_eq_ok_iff]
  refine ⟨?_, ?_⟩
  · intro h
    obtain ⟨us, ⟨hcuts, hone, -⟩, h⟩ := h
    exact ⟨us, hcuts, hone, h⟩
  · intro h
    obtain ⟨us, hcuts, hone, h⟩ := h
    exact ⟨us, ⟨hcuts, hone, nofun⟩, h⟩

end Branchwise
