/-
Reading one token at a time.

The tokens of a formula can be asked for one by one.  A product that is implied comes up only when
the value behind it has been read already, so that value is held back for the next call
(`Reader.next`).  Reading everything and then writing the products gives the same, step by step:
`exists_run_readFrom` follows the recursion of `readFrom`, where nothing is held, and a call that
holds a value back is followed by the one that gives it.

An error is the last that is given (`Run.eq_nil_of_error`), and a reader that has nothing to give
stays as it is (`Run.next_iterate`).
-/
import Mathlib.Logic.Function.Iterate
import Branchwise.Proofs.Token.Places

namespace Branchwise

open Text (Glyph)

namespace Token

/-! ### A reader -/

/-- What is yet to be read, and what is known of what was given. -/
structure Reader where
  glyphs : List Glyph
  known : Option Variable
  /-- The kind of the token that was given last. -/
  previous : Option Kind
  /-- A value that was read but not given. -/
  held : Option Token

namespace Reader

/-- The reader of a text that has given nothing yet. -/
def ofText (text : List Char) : Reader :=
  ⟨Glyph.ofText text, none, none, none⟩

/-- The variable letter as it is known so far. -/
def variableLetter (r : Reader) : Option Char :=
  r.known.map (·.letter)

/-- Reads the token that starts at the first glyph, if there is one. -/
def scan (r : Reader) : Option (Except LexError (Token × Reader)) :=
  match r.glyphs with
  | [] => none
  | g :: rest =>
    let lexeme := Lexeme.scan g rest
    match ofLexeme r.known r.previous g rest lexeme with
    | .error e => some (.error e)
    | .ok (t, known) =>
      some (.ok (t, { r with glyphs := rest.drop (lexeme.width - 1), known := known }))

/-- Gives the next result, if there is one.  A value that is held comes first.  A value behind a
value is held back, and a product is given in its place. -/
def next (r : Reader) : Option (Except LexError Token) × Reader :=
  match r.held with
  | some t => (some (.ok t), { r with previous := some t.kind, held := none })
  | none =>
    match r.scan with
    | none => (none, r)
    | some (.error e) => (some (.error e), { r with glyphs := [] })
    | some (.ok (t, r')) =>
      if t.isValue && r.previous.any (·.isValue) then
        (some (.ok (impliedProduct t.offset)),
          { r' with previous := some .binary, held := some t })
      else (some (.ok t), { r' with previous := some t.kind })

/-- The token that the next call reads from the text, if it reads one. -/
def fresh (r : Reader) : Option Token :=
  match r.held, r.scan with
  | none, some (.ok (t, _)) => some t
  | _, _ => none

/-- Asking until nothing is given: the tokens that are read from the text on the way, what is
given, and the reader in the end. -/
inductive Run : Reader → List Token → List Step → Reader → Prop
  | done {r : Reader} (h : r.next = (none, r)) : Run r [] [] r
  | call {r r' last : Reader} {result : Except LexError Token} {read : List Token}
      {steps : List Step} (h : r.next = (some result, r')) (hrest : Run r' read steps last) :
      Run r (r.fresh.toList ++ read) (⟨result, r'.variableLetter⟩ :: steps) last

/-! ### One call -/

variable {known known' : Option Variable} {previous : Option Kind} {g : Glyph} {rest : List Glyph}
  {t : Token} {r r' : Reader}

theorem next_nil (known : Option Variable) (previous : Option Kind) :
    next ⟨[], known, previous, none⟩ = (none, ⟨[], known, previous, none⟩) :=
  rfl

theorem next_held (glyphs : List Glyph) (known : Option Variable) (previous : Option Kind)
    (t : Token) :
    next ⟨glyphs, known, previous, some t⟩ =
      (some (.ok t), ⟨glyphs, known, some t.kind, none⟩) :=
  rfl

theorem next_error {e : LexError}
    (h : ofLexeme known previous g rest (Lexeme.scan g rest) = .error e) :
    next ⟨g :: rest, known, previous, none⟩ = (some (.error e), ⟨[], known, previous, none⟩) := by
  simp [next, scan, h]

/-- A token is given when it is read, unless it is a value behind a value. -/
theorem next_ok (h : ofLexeme known previous g rest (Lexeme.scan g rest) = .ok (t, known')) :
    next ⟨g :: rest, known, previous, none⟩ =
      if t.isValue && previous.any (·.isValue) then
        (some (.ok (impliedProduct t.offset)),
          ⟨rest.drop ((Lexeme.scan g rest).width - 1), known', some .binary, some t⟩)
      else (some (.ok t),
        ⟨rest.drop ((Lexeme.scan g rest).width - 1), known', some t.kind, none⟩) := by
  simp [next, scan, h]

theorem fresh_error {e : LexError}
    (h : ofLexeme known previous g rest (Lexeme.scan g rest) = .error e) :
    fresh ⟨g :: rest, known, previous, none⟩ = none := by
  simp [fresh, scan, h]

theorem fresh_ok (h : ofLexeme known previous g rest (Lexeme.scan g rest) = .ok (t, known')) :
    fresh ⟨g :: rest, known, previous, none⟩ = some t := by
  simp [fresh, scan, h]

/-- An error leaves nothing to give. -/
theorem next_of_error {e : LexError} (h : r.next = (some (.error e), r')) :
    r'.next = (none, r') := by
  unfold next at h
  split at h
  · cases h
  · rename_i hheld
    split at h
    · cases h
    · obtain ⟨-, rfl⟩ := Prod.mk.inj h
      rw [next, scan, hheld]
    · split at h <;> cases h

/-! ### The end of a run -/

theorem Run.next_last {last : Reader} {read : List Token} {steps : List Step}
    (h : Run r read steps last) : last.next = (none, last) := by
  induction h with
  | done h => exact h
  | call _ _ ih => exact ih

/-- An error is the last that is given. -/
theorem Run.eq_nil_of_error {last : Reader} {read : List Token} {steps before after : List Step}
    {step : Step} {e : LexError} (h : Run r read steps last)
    (hsteps : steps = before ++ step :: after) (he : step.result = .error e) : after = [] := by
  induction h generalizing before with
  | done => simp at hsteps
  | @call r r' last result read steps hcall hrest ih =>
    cases before with
    | cons first before => exact ih (List.cons.inj hsteps).2
    | nil =>
      obtain ⟨rfl, rfl⟩ := List.cons.inj hsteps
      obtain rfl : result = .error e := he
      have hnone := next_of_error hcall
      cases hrest with
      | done => rfl
      | call hmore _ =>
        rw [hnone] at hmore
        cases hmore

/-- **However often it is asked, a reader at its end gives nothing.** -/
theorem Run.next_iterate {last : Reader} {read : List Token} {steps : List Step}
    (h : Run r read steps last) (n : Nat) :
    ((fun r : Reader => r.next.2)^[n] last).next.1 = none := by
  have hsame : (fun r : Reader => r.next.2)^[n] last = last := by
    induction n with
    | zero => rfl
    | succ n ih => rw [Function.iterate_succ_apply, h.next_last, ih]
  rw [hsame, h.next_last]

end Reader

/-! ### All calls -/

/-- The tokens that are given, without the error that may end them. -/
def given (steps : List Step) : List Token :=
  steps.filterMap fun step => step.result.toOption

theorem given_cons (step : Step) (steps : List Step) :
    given (step :: steps) = step.result.toOption.toList ++ given steps := by
  unfold given
  cases h : step.result.toOption <;> simp [h]

theorem given_of_mapM_eq_ok {steps : List Step} {ts : List Token}
    (h : steps.mapM (·.result) = .ok ts) : given steps = ts := by
  induction steps generalizing ts with
  | nil => exact Except.ok.inj h
  | cons step rest ih =>
    obtain ⟨t, ht, us, hus, rfl⟩ := mapM_cons_eq_ok_iff.1 h
    rw [given_cons, ht, ih hus]
    rfl

/-- The letter that the token is, if it is one. -/
def letter? (t : Token) : Option Char :=
  if t.kind = .letter then t.literal.toList.head? else none

/-- The first letter among the tokens, as the variable of a formula. -/
def firstLetter? (ts : List Token) : Option Variable :=
  ts.findSome? fun t => t.letter?.map fun letter => ⟨letter, t.offset⟩

variable {known known' : Option Variable} {previous : Option Kind} {g : Glyph} {rest : List Glyph}
  {lexeme : Lexeme} {t : Token}

theorem letter?_of_ofLexeme {first : Option Variable}
    (h : ofLexeme none previous g rest lexeme = .ok (t, first)) (hletter : t.kind = .letter) :
    t.letter? = some g.char := by
  rw [letter?, if_pos hletter, literal_of_ofLexeme h hletter]
  simp

theorem knownAfter_or_firstLetter? {first : Option Variable}
    (h : ofLexeme none previous g rest lexeme = .ok (t, first)) (known : Option Variable)
    (ts : List Token) :
    (knownAfter known g t).or (firstLetter? ts) = known.or (firstLetter? (t :: ts)) := by
  rw [knownAfter, firstLetter?, firstLetter?, List.findSome?_cons]
  by_cases hletter : t.kind = .letter
  · rw [if_pos hletter, letter?_of_ofLexeme h hletter, offset_of_ofLexeme h]
    cases known <;> rfl
  · rw [if_neg hletter, letter?, if_neg hletter]
    rfl

namespace Reader

/-- **Asking for the tokens of a text one by one gives the steps of reading it**, and in the end the
variable is the first letter that was read. -/
theorem exists_run_readFrom (known : Option Variable) (previous : Option Kind)
    (glyphs : List Glyph) :
    ∃ last, Run ⟨glyphs, known, previous, none⟩ (given (readFrom known previous glyphs))
        (withProducts previous (readFrom known previous glyphs)) last ∧
      last.known = known.or (firstLetter? (given (readFrom known previous glyphs))) := by
  fun_induction readFrom known previous glyphs with
  | case1 known previous =>
    refine ⟨_, .done (next_nil known previous), ?_⟩
    simp [given, firstLetter?]
  | case2 known previous g rest lexeme e =>
    rename_i he
    have hcall := next_error he
    refine ⟨⟨[], known, previous, none⟩, ?_, ?_⟩
    · have hrun := Run.call hcall (.done (next_nil known previous))
      rwa [fresh_error he] at hrun
    · simp [given, firstLetter?, Except.toOption]
  | case3 known previous g rest lexeme t known' ht =>
    rename_i ih
    obtain ⟨last, hrun, hknown⟩ := ih
    obtain ⟨⟨first, hfirst⟩, -, rfl⟩ := ofLexeme_eq_ok_iff.1 ht
    refine ⟨last, ?_, ?_⟩
    · have hcall := next_ok ht
      have hfresh := fresh_ok ht
      by_cases hdue : (t.isValue && previous.any (·.isValue)) = true
      · -- The call reads the token but gives a product, and the next one gives the token.
        rw [if_pos hdue] at hcall
        have hheld := Run.call hcall (.call (next_held _ _ _ t) hrun)
        rw [hfresh] at hheld
        simpa [withProducts, hdue, given, Except.toOption, fresh, variableLetter] using hheld
      · rw [if_neg hdue] at hcall
        have hgiven := Run.call hcall hrun
        rw [hfresh] at hgiven
        simpa [withProducts, hdue, given, Except.toOption, variableLetter] using hgiven
    · rw [hknown, knownAfter_or_firstLetter? hfirst]
      simp [given, Except.toOption]

end Reader

end Token

end Branchwise
