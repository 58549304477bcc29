/-
Which texts are points, and which points a list of texts gives.

The reader cuts a text at its first equals sign and the rest at its first comma, and says nothing of
later ones.  It need not: they would be left in a number, and no number has either mark.  So a text
that is read has a layout, with a label that has no equals sign and two numbers with one comma between
them, and every text laid out like this is read.
-/
import Mathlib.Control.Monad.Basic
import Mathlib.Data.List.DropRight
import Branchwise.Point
import Branchwise.Proofs.Decimal.Grammar
import Branchwise.Proofs.Refusal

namespace Branchwise

open Decimal (IsNumber)
open Text (cut? cut?_eq_none_iff cut?_eq_some_iff isBlank trim)

/-! ### Trimmed text -/

namespace Text

variable {text : List Char} {c : Char}

theorem mem_dropWhile_isBlank_iff (hc : ¬ isBlank c) : c ∈ text.dropWhile isBlank ↔ c ∈ text := by
  have htake : c ∉ text.takeWhile isBlank := by
    intro hmem
    exact hc (List.mem_takeWhile_imp hmem)
  conv_rhs => rw [← List.takeWhile_append_dropWhile (p := isBlank) (l := text)]
  rw [List.mem_append, or_iff_right htake]

/-- Trimming takes nothing but blanks. -/
theorem mem_trim_iff (hc : ¬ isBlank c) : c ∈ trim text ↔ c ∈ text := by
  rw [trim, List.mem_reverse, mem_dropWhile_isBlank_iff hc, List.mem_reverse,
    mem_dropWhile_isBlank_iff hc]

/-- Something is left if there is more than blanks. -/
theorem trim_ne_nil_iff : trim text ≠ [] ↔ ∃ c ∈ text, ¬ isBlank c := by
  have hnil : trim text = [] ↔ ∀ c ∈ text.dropWhile isBlank, isBlank c :=
    List.rdropWhile_eq_nil_iff
  rw [ne_eq, hnil]
  push Not
  exact exists_congr fun c => and_congr_left fun hc => mem_dropWhile_isBlank_iff (by simp [hc])

end Text

namespace LabeledPoint

/-! ### The layout of a point -/

/-- How the text of a point is made up: one comma between two numbers, and one equals sign if there
is a label.  The label may hold commas; blanks may stand around it and around the numbers. -/
structure Layout where
  label? : Option (List Char)
  re : List Char
  im : List Char
  label_no_equals : ∀ label ∈ label?, '=' ∉ label
  label_not_blank : ∀ label ∈ label?, ∃ c ∈ label, ¬ isBlank c
  re_no_mark : '=' ∉ re ∧ ',' ∉ re
  im_no_mark : '=' ∉ im ∧ ',' ∉ im
  re_isNumber : IsNumber (trim re)
  im_isNumber : IsNumber (trim im)

namespace Layout

/-- The numbers with their comma. -/
def coordinates (l : Layout) : List Char :=
  l.re ++ ',' :: l.im

/-- The characters that are laid out like this. -/
def chars (l : Layout) : List Char :=
  match l.label? with
  | none => l.coordinates
  | some label => label ++ '=' :: l.coordinates

/-- The text that is laid out like this. -/
def text (l : Layout) : String :=
  String.ofList l.chars

/-- The label as written, without the blanks around it, or else the place of the point. -/
def labelAt (l : Layout) (place : Nat) : String :=
  (l.label?.map fun label => String.ofList (trim label)).getD (toString place)

/-- The point that a text of this layout writes at a place of a list. -/
def pointAt (l : Layout) (place : Nat) : LabeledPoint :=
  ⟨l.labelAt place, l.re_isNumber.value, l.im_isNumber.value⟩

end Layout

/-- A text that has the layout of a point. -/
def IsPoint (text : String) : Prop :=
  ∃ l : Layout, l.text = text

/-! ### No number has a mark of the layout -/

/-- Neither mark is blank, so no trimming takes it away. -/
theorem no_mark_of_isNumber_trim {text : List Char} (h : IsNumber (trim text)) :
    '=' ∉ text ∧ ',' ∉ text := by
  refine ⟨?_, ?_⟩
  · rw [← Text.mem_trim_iff (by decide)]
    exact h.not_mem (by decide) (by simp) (by decide)
  · rw [← Text.mem_trim_iff (by decide)]
    exact h.not_mem (by decide) (by simp) (by decide)

/-! ### Reading one point -/

namespace Layout

variable (l : Layout)

theorem equals_not_mem_coordinates : '=' ∉ l.coordinates := by
  simp [coordinates, l.re_no_mark.1, l.im_no_mark.1]

theorem splitLabel?_chars (place : Nat) :
    splitLabel? l.chars place = some (l.labelAt place, l.coordinates) := by
  cases hlabel : l.label? with
  | none =>
    have hcut := cut?_eq_none_iff.2 l.equals_not_mem_coordinates
    simp [splitLabel?, chars, labelAt, hlabel, hcut]
  | some label =>
    have hcut : cut? '=' (label ++ '=' :: l.coordinates) = some (label, l.coordinates) :=
      cut?_eq_some_iff.2 ⟨rfl, l.label_no_equals label hlabel⟩
    have hne := Text.trim_ne_nil_iff.2 (l.label_not_blank label hlabel)
    simp [splitLabel?, chars, labelAt, hlabel, hcut, hne]

theorem readCoordinates?_coordinates :
    readCoordinates? l.coordinates = some ⟨l.re_isNumber.value, l.im_isNumber.value⟩ := by
  have hcut : cut? ',' l.coordinates = some (l.re, l.im) :=
    cut?_eq_some_iff.2 ⟨rfl, l.re_no_mark.2⟩
  simp [readCoordinates?, hcut, l.re_isNumber.read?_eq, l.im_isNumber.read?_eq]

/-- A text that is laid out as a point is read as that point. -/
theorem parse_text (place : Nat) : parse l.text place = .ok (l.pointAt place) := by
  simp [parse, text, l.splitLabel?_chars, l.readCoordinates?_coordinates, pointAt]

end Layout

theorem exists_numbers_of_readCoordinates? {text : List Char} {z : ComplexFloat}
    (h : readCoordinates? text = some z) :
    ∃ re im, text = re ++ ',' :: im ∧ IsNumber (trim re) ∧ IsNumber (trim im) := by
  simp only [readCoordinates?, Option.bind_eq_bind, Option.bind_eq_some_iff, Prod.exists] at h
  obtain ⟨re, im, hcut, x, hre, y, him, -⟩ := h
  obtain ⟨htext, -⟩ := cut?_eq_some_iff.1 hcut
  have hre' : IsNumber (trim re) := Decimal.isSome_read?_iff.1 (by rw [hre]; rfl)
  have him' : IsNumber (trim im) := Decimal.isSome_read?_iff.1 (by rw [him]; rfl)
  exact ⟨re, im, htext, hre', him'⟩

theorem exists_label_of_splitLabel? {text coordinates : List Char} {place : Nat} {label : String}
    (h : splitLabel? text place = some (label, coordinates)) :
    text = coordinates ∨ ∃ written, text = written ++ '=' :: coordinates ∧ '=' ∉ written ∧
      ∃ c ∈ written, ¬ isBlank c := by
  unfold splitLabel? at h
  split at h
  · cases h
    exact .inl rfl
  · rename_i written behind hcut
    split at h
    · cases h
    · rename_i hne
      cases h
      obtain ⟨htext, hwritten⟩ := cut?_eq_some_iff.1 hcut
      exact .inr ⟨written, htext, hwritten, Text.trim_ne_nil_iff.1 (by simpa using hne)⟩

/-- Only a text that is laid out as a point is read. -/
theorem isPoint_of_parse {input : String} {place : Nat} {point : LabeledPoint}
    (h : parse input place = .ok point) : IsPoint input := by
  have hread : ∃ label coordinates z, splitLabel? input.toList place = some (label, coordinates) ∧
      readCoordinates? coordinates = some z := by
    unfold parse at h
    dsimp only at h
    split at h
    · rename_i point hpoint
      simp only [Option.bind_eq_bind, Option.bind_eq_some_iff, Prod.exists] at hpoint
      obtain ⟨label, coordinates, hsplit, z, hz, -⟩ := hpoint
      exact ⟨label, coordinates, z, hsplit, hz⟩
    · cases h
  obtain ⟨label, coordinates, z, hsplit, hz⟩ := hread
  obtain ⟨re, im, rfl, hre, him⟩ := exists_numbers_of_readCoordinates? hz
  have hreMark := no_mark_of_isNumber_trim hre
  have himMark := no_mark_of_isNumber_trim him
  rcases exists_label_of_splitLabel? hsplit with htext | ⟨written, htext, hno, hblank⟩
  · refine ⟨⟨none, re, im, nofun, nofun, hreMark, himMark, hre, him⟩, ?_⟩
    exact (congrArg String.ofList htext.symm).trans String.ofList_toList
  · refine ⟨⟨some written, re, im, ?_, ?_, hreMark, himMark, hre, him⟩, ?_⟩
    · simpa using hno
    · simpa using hblank
    · exact (congrArg String.ofList htext.symm).trans String.ofList_toList

theorem parse_eq_ok_iff {input : String} {place : Nat} {point : LabeledPoint} :
    parse input place = .ok point ↔ ∃ l : Layout, l.text = input ∧ l.pointAt place = point := by
  refine ⟨?_, ?_⟩
  · intro h
    obtain ⟨l, rfl⟩ := isPoint_of_parse h
    rw [l.parse_text] at h
    exact ⟨l, rfl, Except.ok.inj h⟩
  · rintro ⟨l, rfl, rfl⟩
    exact l.parse_text place

theorem parse_stopsAtFirst (input : String) (place : Nat) :
    StopsAtFirst IsPoint PointError.mk [input] (parse input place) := by
  cases hparse : parse input place with
  | ok point => exact .ok (by simpa using isPoint_of_parse hparse)
  | error e =>
    have hinput : e = ⟨input⟩ := by
      unfold parse at hparse
      dsimp only at hparse
      split at hparse <;> cases hparse
      rfl
    rw [hinput]
    refine .error (.head ?_ [])
    rintro ⟨l, rfl⟩
    rw [l.parse_text] at hparse
    cases hparse

/-! ### Reading all points -/

theorem mapM_parse_eq_ok_iff {inputs : List String} {first : Nat} {points : List LabeledPoint} :
    ((inputs.zipIdx first).mapM fun (input, place) => parse input place) = .ok points ↔
      ∃ layouts : List Layout, layouts.map Layout.text = inputs ∧
        ((layouts.zipIdx first).map fun (l, place) => l.pointAt place) = points := by
  induction inputs generalizing first points with
  | nil => simp [pure, Except.pure]
  | cons input inputs ih =>
    rw [List.zipIdx_cons, mapM_cons_eq_ok_iff]
    refine ⟨?_, ?_⟩
    · rintro ⟨point, hpoint, others, hothers, rfl⟩
      obtain ⟨l, rfl, rfl⟩ := parse_eq_ok_iff.1 hpoint
      obtain ⟨layouts, rfl, rfl⟩ := ih.1 hothers
      exact ⟨l :: layouts, rfl, rfl⟩
    · rintro ⟨layouts, hinputs, rfl⟩
      obtain ⟨l, layouts, rfl, rfl, rfl⟩ := List.map_eq_cons_iff.1 hinputs
      exact ⟨_, l.parse_text first, _, ih.2 ⟨layouts, rfl, rfl⟩, rfl⟩

/-- **The points of a list of texts.**  All of them are read if each has the layout of a point; then
they are the points of these layouts, in order, and a point without a label is labeled with its place.
Otherwise the error holds the first text that has no such layout. -/
theorem parseAll_reads_points (inputs : List String) :
    ((∃ points, parseAll inputs = .ok points) ↔ ∀ input ∈ inputs, IsPoint input) ∧
      (∀ points, parseAll inputs = .ok points ↔
        ∃ layouts : List Layout, layouts.map Layout.text = inputs ∧
          (layouts.zipIdx.map fun (l, place) => l.pointAt place) = points) ∧
      ∀ e, parseAll inputs = .error e ↔ FirstRefused IsPoint inputs e.input := by
  have hstops : StopsAtFirst IsPoint PointError.mk inputs (parseAll inputs) := by
    have hrow := StopsAtFirst.mapM (fun p : String × Nat => parse_stopsAtFirst p.1 p.2)
      inputs.zipIdx
    rwa [List.zipIdx_map_fst] at hrow
  refine ⟨hstops.exists_ok_iff, fun points => mapM_parse_eq_ok_iff, fun e => ?_⟩
  rw [hstops.eq_error_iff]
  refine ⟨?_, ?_⟩
  · rintro ⟨input, hinput, rfl⟩
    exact hinput
  · intro hinput
    exact ⟨e.input, hinput, rfl⟩

-- a label with a comma, blanks around all parts, and the place of a point that has no label
example :
    parseAll [" a,b = .5 , -INF", "2e3,0"] =
      .ok [⟨"a,b", ⟨0.5, -Binary64.infinity⟩⟩, ⟨"1", ⟨2000, 0⟩⟩] := by
  decide +kernel

end LabeledPoint

end Branchwise
