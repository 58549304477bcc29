/-
Formulas built from formulas.

Writing formulas into a larger text builds the function of the text from their functions.
Between them stand marks, and a mark shields both sides at every stage.  The reader
neither looks across it nor remembers, at an opening bracket, what came before; no product is
implied next to it; and the brackets keep the operators inside from the ones outside.  What is left
to ask for is that the formulas agree on the variable.

The argument is made once for glyphs (`Reads`), where the parts keep their tokens, and carried over
to texts by their characters (`compile_of_reads`).
-/
import Mathlib
import Branchwise.Formula
import Branchwise.Proofs.Multifunction.Compile
import Branchwise.Proofs.Token.Joint

namespace Branchwise

open Text (Glyph isBlank strip)
open Token (Cuts OneVariable insertProducts lastKind lastKind_concat)

namespace Formula

/-! ### Formulas by their characters -/

theorem compile_eq_ok_iff {formula : String} {f : Multifunction} :
    compile formula = .ok f ↔ ∃ ts, tokenize formula = .ok ts ∧ Compiles ts f := by
  simp only [compile, parse, bind_eq_ok_iff, mapError_eq_ok_iff, Compiles]
  refine ⟨?_, ?_⟩
  · intro h
    obtain ⟨e, ⟨ts, hts, he⟩, hf⟩ := h
    exact ⟨ts, hts, e, he, hf⟩
  · intro h
    obtain ⟨ts, hts, e, he, hf⟩ := h
    exact ⟨e, ⟨ts, hts, he⟩, hf⟩

/-- The glyphs are cut into these tokens, and with the implied products these mean `f`. -/
structure Reads (xs : List Glyph) (ts : List Token) (f : Multifunction) : Prop where
  clean : ∀ x ∈ xs, x.Clean
  cuts : Cuts none xs ts []
  oneVariable : OneVariable ts
  compiles : Compiles (insertProducts none ts) f

theorem exists_reads_of_compile {formula : String} {f : Multifunction}
    (h : compile formula = .ok f) :
    ∃ ts, Reads (Glyph.ofText formula.toList) ts f ∧
      tokenize formula = .ok (insertProducts none ts) := by
  obtain ⟨_, htokens, hf⟩ := compile_eq_ok_iff.1 h
  obtain ⟨ts, hcuts, hone, rfl⟩ := tokenize_eq_ok_iff.1 htokens
  exact ⟨ts, ⟨fun x hx => Glyph.clean_of_mem_ofText hx, hcuts, hone, hf⟩, htokens⟩

/-- **A formula compiles if any glyphs with its characters do.** -/
theorem compile_of_reads {formula : String} {xs : List Glyph} {ts : List Token}
    {f : Multifunction} (h : Reads xs ts f) (hchars : xs.map Glyph.char = strip formula.toList) :
    compile formula = .ok f := by
  obtain ⟨us, rest, hus, hrest, hbare⟩ := h.cuts.congr
    (hchars.trans (Glyph.map_char_ofText _).symm) h.clean
    (fun x hx => Glyph.clean_of_mem_ofText hx)
  obtain rfl : rest = [] := List.map_eq_nil_iff.1 hrest.symm
  have hone : OneVariable us := by
    rw [← Token.oneVariable_map_bare, ← hbare, Token.oneVariable_map_bare]
    exact h.oneVariable
  refine compile_eq_ok_iff.2 ⟨_, tokenize_eq_ok_iff.2 ⟨us, hus, hone, rfl⟩, ?_⟩
  rw [← compiles_map_iff Token.keeps_bare, Token.map_bare_insertProducts, ← hbare,
    ← Token.map_bare_insertProducts, compiles_map_iff Token.keeps_bare]
  exact h.compiles

/-! ### Marks and names between formulas -/

/-- A character that is written between formulas. -/
def mark (c : Char) : Glyph :=
  ⟨c, 0, []⟩

/-- The token of an opening bracket, without its place. -/
def opening : Token := ⟨.leftParen, Keyword.leftParen.spelling, 0⟩

/-- The token of a closing bracket, without its place. -/
def closing : Token := ⟨.rightParen, Keyword.rightParen.spelling, 0⟩

/-- The token between two arguments, without its place. -/
def separator : Token := ⟨.separator, Keyword.separator.spelling, 0⟩

theorem separates_closing : Keyword.Separates (mark ')').char := by
  decide

theorem separates_separator : Keyword.Separates (mark ',').char := by
  decide

theorem separates_opening : Keyword.Separates (mark '(').char := by
  decide

theorem clean_mark {c : Char} (hc : ¬ isBlank c) : (mark c).Clean :=
  ⟨hc, by simp [mark]⟩

theorem clean_spelling (word : Keyword) : ∀ x ∈ word.spelling.toList.map mark, x.Clean :=
  List.forall_mem_map.2 fun _ hc => clean_mark (Keyword.not_isBlank_of_mem_spelling hc)

section Brackets

variable {previous : Option Token.Kind} {xs ys : List Glyph} {ts us : List Token}

/-- A name in front of a bracket is cut off. -/
theorem cuts_name (word : Keyword) (rest : List Glyph) :
    ∃ offset, Cuts previous (word.spelling.toList.map mark ++ mark '(' :: rest)
      [⟨word.kind previous, word.spelling, offset⟩] (mark '(' :: rest) := by
  have hword : (word.spelling.toList.map mark).map Glyph.char = word.spelling.toList := by
    simp [mark, Function.comp_def]
  exact Cuts.name hword separates_opening rest

/-- A text in brackets is cut as it is by itself. -/
theorem cuts_bracket (h : Cuts none xs ts []) (rest : List Glyph) :
    Cuts previous (mark '(' :: (xs ++ mark ')' :: rest)) (opening :: (ts ++ [closing])) rest := by
  have hopen : Cuts previous (mark '(' :: (xs ++ mark ')' :: rest)) [opening] _ :=
    Cuts.mark .leftParen trivial rfl _
  have hinner : Cuts (some .leftParen) (xs ++ mark ')' :: rest) ts (mark ')' :: rest) :=
    (h.restart (some .leftParen) rfl).append_cons separates_closing rest
  exact hopen.append (hinner.append (Cuts.mark .rightParen trivial rfl rest))

/-- So are two texts in brackets with a separator between them. -/
theorem cuts_pair (h : Cuts none xs ts []) (h' : Cuts none ys us []) (rest : List Glyph) :
    Cuts previous (mark '(' :: (xs ++ mark ',' :: (ys ++ mark ')' :: rest)))
      (opening :: (ts ++ separator :: (us ++ [closing]))) rest := by
  have hopen : Cuts previous (mark '(' :: (xs ++ mark ',' :: (ys ++ mark ')' :: rest))) [opening]
      _ := Cuts.mark .leftParen trivial rfl _
  have hfirst : Cuts (some .leftParen) (xs ++ mark ',' :: (ys ++ mark ')' :: rest)) ts
      (mark ',' :: (ys ++ mark ')' :: rest)) :=
    (h.restart (some .leftParen) rfl).append_cons separates_separator _
  have hcomma : Cuts (Token.lastKind (some .leftParen) ts)
      (mark ',' :: (ys ++ mark ')' :: rest)) [separator] (ys ++ mark ')' :: rest) :=
    Cuts.mark .separator trivial rfl _
  have hsecond : Cuts (some .separator) (ys ++ mark ')' :: rest) us (mark ')' :: rest) :=
    (h'.restart (some .separator) rfl).append_cons separates_closing rest
  have hclose := hsecond.append (Cuts.mark .rightParen trivial rfl rest)
  exact hopen.append (hfirst.append (hcomma.append hclose))

theorem clean_bracket (hxs : ∀ x ∈ xs, x.Clean) (hys : ∀ y ∈ ys, y.Clean) :
    ∀ x ∈ mark '(' :: (xs ++ mark ')' :: ys), x.Clean := by
  simp only [List.forall_mem_cons, List.forall_mem_append]
  exact ⟨clean_mark (by decide), hxs, clean_mark (by decide), hys⟩

/-- No product is implied next to a bracket. -/
theorem insertProducts_bracket :
    insertProducts previous (opening :: (ts ++ closing :: us)) =
      opening :: (insertProducts none ts ++ closing :: insertProducts none us) := by
  rw [Token.insertProducts_cons (by decide), Token.insertProducts_append_cons (by decide)]

theorem insertProducts_pair {vs : List Token} :
    insertProducts previous (opening :: (ts ++ separator :: (us ++ closing :: vs))) =
      opening :: (insertProducts none ts ++
        separator :: (insertProducts none us ++ closing :: insertProducts none vs)) := by
  rw [Token.insertProducts_cons (by decide), Token.insertProducts_append_cons (by decide),
    Token.insertProducts_append_cons (by decide)]

end Brackets

/-! ### Functions of composed texts -/

namespace Reads

variable {xs ys : List Glyph} {ts us : List Token} {f g : Multifunction}

theorem binary (h : Reads xs ts f) (h' : Reads ys us g) (hone : OneVariable (ts ++ us))
    {op : Operator} {c : Char} (hc : (Named.name op).toList = [c]) :
    ∃ vs, Reads (mark '(' :: (xs ++ mark ')' :: mark c :: mark '(' :: (ys ++ [mark ')']))) vs
      (.binary op f g) := by
  let operator : Token := ⟨.binary, Named.name op, 0⟩
  have hvalue : ¬ operator.isValue := nofun
  have hspelling : (Keyword.operator op).spelling.toList = [(mark c).char] := hc
  have hblank : ¬ isBlank c := Keyword.not_isBlank_of_mem_spelling (by rw [hspelling]; simp [mark])
  refine ⟨opening :: (ts ++ closing :: operator :: opening :: (us ++ [closing])), ?_, ?_, ?_, ?_⟩
  · have hright := List.forall_mem_cons.2
      ⟨clean_mark hblank, clean_bracket h'.clean (List.forall_mem_nil _)⟩
    exact clean_bracket h.clean hright
  · -- behind a closed bracket every operator, a minus too, takes two operands
    have hop : Cuts (some .rightParen) (mark c :: mark '(' :: (ys ++ [mark ')'])) [operator]
        (mark '(' :: (ys ++ [mark ')'])) := by
      have hkind : (Keyword.operator op).kind (some .rightParen) = .binary := by
        cases op <;> rfl
      have hcut : Cuts (some .rightParen) (mark c :: mark '(' :: (ys ++ [mark ')'])) _ _ :=
        Cuts.mark (.operator op) trivial hspelling _
      rwa [hkind] at hcut
    have hleft : Cuts none _ (opening :: ts ++ [closing]) _ :=
      cuts_bracket h.cuts (mark c :: mark '(' :: (ys ++ [mark ')']))
    have hright := hop.append (cuts_bracket h'.cuts [])
    have hlast : lastKind none (opening :: ts ++ [closing]) = some .rightParen :=
      lastKind_concat none (opening :: ts) closing
    rw [← hlast] at hright
    simpa using hleft.append hright
  · refine hone.of_subset ?_
    simp only [List.forall_mem_cons, List.forall_mem_append]
    exact ⟨nofun, fun t ht _ => List.mem_append_left us ht, nofun, nofun, nofun,
      fun t ht _ => List.mem_append_right ts ht, nofun, nofun⟩
  · rw [insertProducts_bracket, Token.insertProducts_cons hvalue, insertProducts_bracket,
      Token.insertProducts]
    have hcompiles : Compiles ((opening :: insertProducts none ts ++ [closing]) ++
        operator :: (opening :: insertProducts none us ++ [closing])) (.binary op f g) :=
      h.compiles.binary h'.compiles rfl rfl rfl rfl rfl rfl
    simpa using hcompiles

theorem negate (h : Reads xs ts f) :
    ∃ vs, Reads (mark '-' :: mark '(' :: (xs ++ [mark ')'])) vs (.negate f) := by
  let minus : Token := ⟨.unary, Named.name Operator.sub, 0⟩
  refine ⟨minus :: opening :: (ts ++ [closing]), ?_, ?_, ?_, ?_⟩
  · exact List.forall_mem_cons.2
      ⟨clean_mark (by decide), clean_bracket h.clean (List.forall_mem_nil _)⟩
  · have hminus : Cuts none (mark '-' :: mark '(' :: (xs ++ [mark ')'])) [minus] _ :=
      Cuts.mark (.operator .sub) trivial rfl _
    exact hminus.append (cuts_bracket h.cuts [])
  · refine h.oneVariable.of_subset ?_
    simp only [List.forall_mem_cons, List.forall_mem_append]
    exact ⟨nofun, nofun, fun t ht _ => ht, nofun, nofun⟩
  · rw [Token.insertProducts_cons (by decide), insertProducts_bracket]
    exact (h.compiles.paren rfl rfl).negate rfl rfl

theorem call (h : Reads xs ts f) (name : Function) :
    ∃ vs, Reads ((Keyword.function name).spelling.toList.map mark ++
      mark '(' :: (xs ++ [mark ')'])) vs (.call name f) := by
  obtain ⟨offset, hname⟩ := cuts_name (.function name) (xs ++ [mark ')'])
  let function : Token := ⟨.function1, Named.name name, offset⟩
  have hvalue : ¬ function.isValue := nofun
  refine ⟨function :: opening :: (ts ++ [closing]), ?_, ?_, ?_, ?_⟩
  · exact List.forall_mem_append.2
      ⟨clean_spelling _, clean_bracket h.clean (List.forall_mem_nil _)⟩
  · exact hname.append (cuts_bracket h.cuts [])
  · refine h.oneVariable.of_subset ?_
    simp only [List.forall_mem_cons, List.forall_mem_append]
    exact ⟨nofun, nofun, fun t ht _ => ht, nofun, nofun⟩
  · rw [Token.insertProducts_cons hvalue, insertProducts_bracket]
    exact h.compiles.call rfl rfl rfl rfl

theorem call2 (h : Reads xs ts f) (h' : Reads ys us g) (hone : OneVariable (ts ++ us))
    (name : Function2) :
    ∃ vs, Reads ((Keyword.function2 name).spelling.toList.map mark ++
      mark '(' :: (xs ++ mark ',' :: (ys ++ [mark ')']))) vs (.call2 name f g) := by
  obtain ⟨offset, hname⟩ := cuts_name (.function2 name) (xs ++ mark ',' :: (ys ++ [mark ')']))
  let function : Token := ⟨.function2, Named.name name, offset⟩
  have hvalue : ¬ function.isValue := nofun
  refine ⟨function :: opening :: (ts ++ separator :: (us ++ [closing])), ?_, ?_, ?_, ?_⟩
  · simp only [List.forall_mem_cons, List.forall_mem_append]
    exact ⟨clean_spelling _, clean_mark (by decide), h.clean, clean_mark (by decide), h'.clean,
      clean_mark (by decide), nofun⟩
  · exact hname.append (cuts_pair h.cuts h'.cuts [])
  · refine hone.of_subset ?_
    simp only [List.forall_mem_cons, List.forall_mem_append]
    exact ⟨nofun, nofun, fun t ht _ => List.mem_append_left us ht, nofun,
      fun t ht _ => List.mem_append_right ts ht, nofun, nofun⟩
  · rw [Token.insertProducts_cons hvalue, insertProducts_pair, Token.insertProducts]
    have hcompiles : Compiles (function :: opening :: insertProducts none ts ++
        separator :: insertProducts none us ++ [closing]) (.call2 name f g) :=
      h.compiles.call2 h'.compiles rfl rfl rfl rfl rfl
    simpa using hcompiles

end Reads

/-- The letter stands for the variable of the formula. -/
def UsesLetter (formula letter : String) : Prop :=
  ∃ ts, tokenize formula = .ok ts ∧ ∃ t ∈ ts, t.kind = .letter ∧ t.literal = letter

/-- **A text composed of formulas with the same variable has the function composed of theirs.** -/
theorem compile_composed {a b : String} {f g : Multifunction} (ha : compile a = .ok f)
    (hb : compile b = .ok g) (hletter : ∀ u v, UsesLetter a u → UsesLetter b v → u = v) :
    (∀ op : Operator, compile ("(" ++ a ++ ")" ++ Named.name op ++ "(" ++ b ++ ")") =
        .ok (.binary op f g)) ∧
      (∀ name : Function, compile (Named.name name ++ "(" ++ a ++ ")") = .ok (.call name f)) ∧
      (∀ name : Function2, compile (Named.name name ++ "(" ++ a ++ "," ++ b ++ ")") =
        .ok (.call2 name f g)) ∧
      compile ("-(" ++ a ++ ")") = .ok (.negate f) := by
  obtain ⟨ts, hts, htokens⟩ := exists_reads_of_compile ha
  obtain ⟨us, hus, htokens'⟩ := exists_reads_of_compile hb
  have hone : OneVariable (ts ++ us) := hts.oneVariable.append hus.oneVariable
    fun t ht u hu hk hk' => hletter _ _
      ⟨_, htokens, t, Token.mem_insertProducts ht none, hk, rfl⟩
      ⟨_, htokens', u, Token.mem_insertProducts hu none, hk', rfl⟩
  have hblanks : isBlank '(' = false ∧ isBlank ')' = false ∧ isBlank ',' = false ∧
      isBlank '-' = false := by decide
  obtain ⟨hopen, hclose, hcomma, hminus⟩ := hblanks
  refine ⟨fun op => ?_, fun name => ?_, fun name => ?_, ?_⟩
  · have hmark : (Keyword.operator op).IsMark := trivial
    obtain ⟨c, hc, -⟩ := hmark.exists_separates
    obtain ⟨vs, hvs⟩ := hts.binary hus hone hc
    have hblank : ¬ isBlank c := Keyword.not_isBlank_of_mem_spelling (by rw [hc]; simp)
    have hname : (Named.name op).toList = [c] := hc
    refine compile_of_reads hvs ?_
    simp [mark, Glyph.map_char_ofText, strip, hopen, hclose, hname, hblank]
  · obtain ⟨vs, hvs⟩ := hts.call name
    have hname : strip (Named.name name).toList = (Named.name name).toList :=
      Keyword.strip_spelling (.function name)
    refine compile_of_reads hvs ?_
    rw [strip] at hname
    simp [mark, Glyph.map_char_ofText, strip, hopen, hclose, hname, Keyword.spelling,
      Function.comp_def]
  · obtain ⟨vs, hvs⟩ := hts.call2 hus hone name
    have hname : strip (Named.name name).toList = (Named.name name).toList :=
      Keyword.strip_spelling (.function2 name)
    refine compile_of_reads hvs ?_
    rw [strip] at hname
    simp [mark, Glyph.map_char_ofText, strip, hopen, hclose, hcomma, hname, Keyword.spelling,
      Function.comp_def]
  · obtain ⟨vs, hvs⟩ := hts.negate
    refine compile_of_reads hvs ?_
    simp [mark, Glyph.map_char_ofText, strip, hopen, hclose, hminus]

/-- A difference and a minus, with blanks, under a power, a sine and a logarithm and behind a
minus. -/
theorem compile_composed_difference :
    let a := "z - z"
    let b := "-z "
    let f := Multifunction.binary .sub .var .var
    let g := Multifunction.negate .var
    compile a = .ok f ∧ compile b = .ok g ∧
      (∀ u v, UsesLetter a u → UsesLetter b v → u = v) ∧
      compile ("(" ++ a ++ ")" ++ Named.name Operator.pow ++ "(" ++ b ++ ")") =
        .ok (.binary .pow f g) ∧
      compile (Named.name Function.sin ++ "(" ++ a ++ ")") = .ok (.call .sin f) ∧
      compile (Named.name Function2.log ++ "(" ++ a ++ "," ++ b ++ ")") =
        .ok (.call2 .log f g) ∧
      compile ("-(" ++ a ++ ")") = .ok (.negate f) := by
  intro a b f g
  have ha : compile a = .ok f := by cbv
  have hb : compile b = .ok g := by cbv
  have htokens : tokenize a = .ok [⟨.letter, "z", 0⟩, ⟨.binary, "-", 2⟩, ⟨.letter, "z", 4⟩] := by
    cbv
  have htokens' : tokenize b = .ok [⟨.unary, "-", 0⟩, ⟨.letter, "z", 1⟩] := by cbv
  have hletter (u v : String) (hu : UsesLetter a u) (hv : UsesLetter b v) : u = v := by
    obtain ⟨ts, hts, t, ht, hk, rfl⟩ := hu
    obtain ⟨us, hus, t', ht', hk', rfl⟩ := hv
    obtain rfl := Except.ok.inj (htokens.symm.trans hts)
    obtain rfl := Except.ok.inj (htokens'.symm.trans hus)
    simp at ht ht'
    rcases ht with rfl | rfl | rfl <;> rcases ht' with rfl | rfl <;> simp_all
  obtain ⟨hbinary, hcall, hcall2, hnegate⟩ := compile_composed ha hb hletter
  exact ⟨ha, hb, hletter, hbinary .pow, hcall .sin, hcall2 .log, hnegate⟩

end Formula

end Branchwise
