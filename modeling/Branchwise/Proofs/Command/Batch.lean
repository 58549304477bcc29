/-
A batch against its lines.

A batch goes through the lines of a file with one cache for all of them, and each line meets the
cache that the lines above it left behind.  The invariant is that this cache is honest: what it
finds is what compiling gives.  So a line has the values that its formula has on its own, and what
a batch prints and reports is put together from what evaluating each line alone prints and reports.

Which texts of a file are lines that ask for something is said here without a program
(`BatchLine.StandsIn`), and `mem_ofContent_iff` shows that the program takes these and no others.
-/
import Mathlib.Data.List.Enum
import Branchwise.Command.Run
import Branchwise.Proofs.Cache.Run

namespace Branchwise

namespace BatchLine

/-! ### The lines of a file -/

/-- The text is neither blank nor a comment, and the line is its fields: the first is the formula,
and those of the others that are not blank are the points. -/
structure IsReadFrom (line : BatchLine) (text : List Char) : Prop where
  not_blank : Text.trim text ≠ []
  not_comment : (Text.trim text).head? ≠ some '#'
  fields : ∃ first others, (Text.trim text).splitOn ';' = first :: others ∧
    line.formula = String.ofList (Text.trim first) ∧
    line.points = ((others.map Text.trim).filter (· ≠ [])).map String.ofList

/-- The line is what the text asks for that stands at its number in the file, from one. -/
def StandsIn (line : BatchLine) (content : String) : Prop :=
  ∃ place text, (content.toList.splitOn '\n')[place]? = some text ∧ line.number = place + 1 ∧
    line.IsReadFrom text

theorem ofText?_eq_some_iff {text : List Char} {number : Nat} {line : BatchLine} :
    ofText? text number = some line ↔ line.number = number ∧ line.IsReadFrom text := by
  unfold ofText?
  dsimp only
  by_cases hskip : ((Text.trim text).isEmpty || (Text.trim text).head? = some '#') = true
  · rw [if_pos hskip]
    refine ⟨nofun, ?_⟩
    rintro ⟨-, hread⟩
    rw [Bool.or_eq_true, List.isEmpty_iff, decide_eq_true_iff] at hskip
    rcases hskip with hblank | hcomment
    · exact absurd hblank hread.not_blank
    · exact absurd hcomment hread.not_comment
  · rw [if_neg hskip]
    rw [Bool.or_eq_true, List.isEmpty_iff, decide_eq_true_iff, not_or] at hskip
    obtain ⟨first, others, hfields⟩ : ∃ first others,
        (Text.trim text).splitOn ';' = first :: others :=
      List.exists_cons_of_ne_nil (List.splitOn_ne_nil ';' _)
    have hpoints : (others.map Text.trim).filter (!·.isEmpty) =
        (others.map Text.trim).filter (· ≠ []) :=
      List.filter_congr fun field _ => by
        rw [Bool.eq_iff_iff, Bool.not_eq_true', List.isEmpty_eq_false_iff, decide_eq_true_iff]
    rw [hfields, List.map_cons, List.headD_cons, List.tail_cons, hpoints]
    refine ⟨?_, ?_⟩
    · intro h
      obtain rfl := Option.some.inj h
      exact ⟨rfl, hskip.1, hskip.2, first, others, hfields, rfl, rfl⟩
    · rintro ⟨rfl, -, -, first', others', hfields', hformula, hlinePoints⟩
      obtain ⟨rfl, rfl⟩ := List.cons.inj (hfields.symm.trans hfields')
      rw [← hformula, ← hlinePoints]

/-- **The program takes exactly the lines that stand in the file.** -/
theorem mem_ofContent_iff {content : String} {line : BatchLine} :
    line ∈ ofContent content ↔ line.StandsIn content := by
  unfold ofContent StandsIn
  rw [List.mem_filterMap]
  refine ⟨?_, ?_⟩
  · rintro ⟨⟨text, number⟩, htext, hline⟩
    obtain ⟨hnumber, hread⟩ := ofText?_eq_some_iff.1 hline
    obtain ⟨hstart, hplace⟩ := List.mk_mem_zipIdx_iff_le_and_getElem?_sub.1 htext
    exact ⟨number - 1, text, hplace, by omega, hread⟩
  · rintro ⟨place, text, hplace, hnumber, hread⟩
    refine ⟨(text, place + 1), ?_, ofText?_eq_some_iff.2 ⟨hnumber, hread⟩⟩
    exact List.mk_mem_zipIdx_iff_le_and_getElem?_sub.2 ⟨by omega, hplace⟩

example : ofContent "# squares\n\n z^2 ; ; 1,2" = [⟨3, "z^2", ["1,2"]⟩] := by
  cbv

/-- The lines are taken in the order of the file. -/
theorem pairwise_number_ofContent (content : String) :
    (ofContent content).Pairwise (·.number < ·.number) := by
  unfold ofContent
  rw [List.pairwise_filterMap]
  have hnumbers : ((content.toList.splitOn '\n').zipIdx 1).Pairwise (·.2 < ·.2) := by
    rw [← List.pairwise_map, List.zipIdx_map_snd]
    exact List.pairwise_lt_range'
  refine hnumbers.imp fun hlt line hline line' hline' => ?_
  rw [(ofText?_eq_some_iff.1 hline).1, (ofText?_eq_some_iff.1 hline').1]
  exact hlt

/-! ### Lines and the cache -/

/-- What evaluating the line alone answers. -/
def alone (line : BatchLine) (window : Nat) : Outcome :=
  .eval line.formula line.points window

/-- Evaluating the line alone fails. -/
def Fails (window : Nat) (line : BatchLine) : Prop :=
  (line.alone window).code ≠ 0

instance (window : Nat) : DecidablePred (Fails window) :=
  fun line => inferInstanceAs (Decidable ((line.alone window).code ≠ 0))

/-- An honest cache cannot be seen in the values of a line, and stays honest. -/
theorem evaluate_of_honest {cache : FormulaCache} (h : cache.Honest) (line : BatchLine)
    (window : Nat) :
    (line.evaluate window cache).1 = Formula.evaluate line.formula line.points window ∧
      (line.evaluate window cache).2.Honest := by
  obtain ⟨hresult, hafter⟩ := h.getOrCompile line.formula
  unfold evaluate Formula.evaluate
  rw [← hresult]
  generalize cache.getOrCompile line.formula = lookUp at hafter
  obtain ⟨result | result, after⟩ := lookUp
  · exact ⟨rfl, hafter⟩
  · exact ⟨rfl, hafter⟩

theorem map_line_evaluateAll (window : Nat) (cache : FormulaCache) (lines : List BatchLine) :
    (evaluateAll window cache lines).1.map (·.line) = lines := by
  induction lines generalizing cache with
  | nil => rfl
  | cons line rest ih => exact congrArg (line :: ·) (ih (line.evaluate window cache).2)

/-- **Each line has the values of its formula on its own.** -/
theorem values_of_mem_evaluateAll {window : Nat} {cache : FormulaCache} (h : cache.Honest)
    {lines : List BatchLine} {result : Result}
    (hresult : result ∈ (evaluateAll window cache lines).1) :
    result.values = Formula.evaluate result.line.formula result.line.points window := by
  induction lines generalizing cache with
  | nil => cases hresult
  | cons line rest ih =>
    obtain ⟨hvalues, hafter⟩ := evaluate_of_honest h line window
    rcases List.mem_cons.1 hresult with rfl | hrest
    · exact hvalues
    · exact ih hafter hrest

/-- The values of all lines are those that each would have without the others. -/
theorem map_values_evaluateAll {window : Nat} {cache : FormulaCache} (h : cache.Honest)
    (lines : List BatchLine) :
    (evaluateAll window cache lines).1.map (·.values) =
      lines.map fun line => (line.evaluate window .empty).1 := by
  have hvalues : ∀ result ∈ (evaluateAll window cache lines).1,
      result.values = (result.line.evaluate window .empty).1 := by
    intro result hresult
    rw [values_of_mem_evaluateAll h hresult]
    exact (evaluate_of_honest FormulaCache.honest_empty result.line window).1.symm
  rw [List.map_congr_left hvalues, ← map_line_evaluateAll window cache lines, List.map_map,
    map_line_evaluateAll]
  rfl

/-- Over the lines of a batch, what a result says can be said of the line alone. -/
theorem flatMap_evaluateAll {α : Type} {window : Nat} {cache : FormulaCache} (h : cache.Honest)
    (lines : List BatchLine) {f : Result → List α} {g : BatchLine → List α}
    (hfg : ∀ result : Result,
      result.values = Formula.evaluate result.line.formula result.line.points window →
        f result = g result.line) :
    (evaluateAll window cache lines).1.flatMap f = lines.flatMap g := by
  have hlines : lines.flatMap g = (evaluateAll window cache lines).1.flatMap (g ·.line) := by
    rw [← List.flatMap_map BatchLine.Result.line g, map_line_evaluateAll]
  rw [hlines]
  exact List.flatMap_congr fun result hresult =>
    hfg result (values_of_mem_evaluateAll h hresult)

end BatchLine

/-! ### What is printed and reported -/

/-- A report on a line of a file. -/
def Report.onLine (report : Report) (number : Nat) : Report :=
  ⟨"line " ++ toString number, report.message :: report.causes⟩

namespace Outcome

theorem exitCode_ne_zero (e : EvaluationError) : e.exitCode ≠ 0 := by
  cases e with
  | point cause => exact nofun
  | formula cause =>
    show FailureKind.exitCode cause.kind ≠ 0
    unfold FailureKind.exitCode
    split <;> exact nofun

/-- A line that fails prints nothing and makes one report. -/
theorem alone_of_fails {window : Nat} {line : BatchLine} (h : line.Fails window) :
    (line.alone window).printed = [] ∧ ∃ report, (line.alone window).reports = [report] := by
  unfold BatchLine.Fails BatchLine.alone eval at h
  unfold BatchLine.alone eval
  cases hvalues : Formula.evaluate line.formula line.points window with
  | ok results =>
    rw [hvalues] at h
    exact absurd rfl h
  | error e => exact ⟨rfl, _, rfl⟩

/-- A line that does not fail makes no report. -/
theorem reports_alone_of_not_fails {window : Nat} {line : BatchLine} (h : ¬line.Fails window) :
    (line.alone window).reports = [] := by
  unfold BatchLine.Fails BatchLine.alone eval at h
  unfold BatchLine.alone eval
  cases hvalues : Formula.evaluate line.formula line.points window with
  | ok results => rfl
  | error e =>
    rw [hvalues] at h
    exact absurd (exitCode_ne_zero e) h

theorem batchPrinted_eq {window : Nat} (result : BatchLine.Result)
    (h : result.values = Formula.evaluate result.line.formula result.line.points window) :
    batchPrinted result =
      (result.line.alone window).printed.map (result.line.formula ++ " | " ++ ·) := by
  unfold batchPrinted BatchLine.alone eval
  rw [← h]
  cases result.values with
  | error e => rfl
  | ok results =>
    show valueLines _ results = (valueLines "" results).map _
    unfold valueLines
    rw [List.map_map]
    refine List.map_congr_left fun p _ => ?_
    show _ = _ ++ ("" ++ p.toText)
    rw [String.empty_append]

theorem batchReport?_eq {window : Nat} (result : BatchLine.Result)
    (h : result.values = Formula.evaluate result.line.formula result.line.points window) :
    (batchReport? result).toList =
      (result.line.alone window).reports.map (·.onLine result.line.number) := by
  unfold batchReport? BatchLine.alone eval
  rw [← h]
  cases result.values with
  | error e => rfl
  | ok results => rfl

/-- The blocks of the lines, each line of a block behind the formula. -/
def printedLines (window : Nat) (lines : List BatchLine) : List String :=
  lines.flatMap fun line => (line.alone window).printed.map (line.formula ++ " | " ++ ·)

/-- The reports on lines, before the one on the whole file. -/
def lineReports (window : Nat) (lines : List BatchLine) : List Report :=
  lines.flatMap fun line => (line.alone window).reports.map (·.onLine line.number)

/-- There are as many reports on lines as lines that fail. -/
theorem length_lineReports (window : Nat) (lines : List BatchLine) :
    (lineReports window lines).length = lines.countP (·.Fails window) := by
  unfold lineReports
  induction lines with
  | nil => rfl
  | cons line rest ih =>
    rw [List.flatMap_cons, List.length_append, List.length_map, ih, List.countP_cons, Nat.add_comm]
    by_cases h : line.Fails window
    · obtain ⟨-, report, hreport⟩ := alone_of_fails h
      rw [hreport, if_pos (decide_eq_true h)]
      rfl
    · rw [reports_alone_of_not_fails h, if_neg (by rwa [decide_eq_true_iff])]
      rfl

/-- The outcome is put together from the lines, each evaluated on its own. -/
structure IsBatchOf (outcome : Outcome) (file : String) (window : Nat) (lines : List BatchLine) :
    Prop where
  printed : outcome.printed = printedLines window lines
  reports : outcome.reports = lineReports window lines ++
    if ∃ line ∈ lines, line.Fails window then
      [⟨toString (lines.countP (·.Fails window)) ++ " line(s) of `" ++ file ++ "` failed", []⟩]
    else []
  code : outcome.code = if ∃ line ∈ lines, line.Fails window then 1 else 0

theorem isEmpty_lineReports_iff {window : Nat} {lines : List BatchLine} :
    (lineReports window lines).isEmpty ↔ ¬∃ line ∈ lines, line.Fails window := by
  rw [List.isEmpty_iff, ← List.length_eq_zero_iff, length_lineReports, List.countP_eq_zero]
  simp only [decide_eq_true_iff, not_exists, not_and]

theorem isBatchOf_batch (file content : String) (window : Nat) :
    (batch file content window).IsBatchOf file window (BatchLine.ofContent content) := by
  have hhonest : FormulaCache.empty.Honest := FormulaCache.honest_empty
  have hprinted : (BatchLine.evaluateAll window .empty
      (BatchLine.ofContent content)).1.flatMap batchPrinted =
        printedLines window (BatchLine.ofContent content) :=
    BatchLine.flatMap_evaluateAll hhonest _ batchPrinted_eq
  have hreports : (BatchLine.evaluateAll window .empty
      (BatchLine.ofContent content)).1.flatMap (fun result => (batchReport? result).toList) =
        lineReports window (BatchLine.ofContent content) :=
    BatchLine.flatMap_evaluateAll hhonest _ batchReport?_eq
  rw [← List.filterMap_eq_flatMap_toList] at hreports
  unfold batch
  generalize BatchLine.evaluateAll window .empty (BatchLine.ofContent content) = run
    at hprinted hreports ⊢
  obtain ⟨results, last⟩ := run
  dsimp only at hprinted hreports ⊢
  rw [hprinted, hreports, length_lineReports]
  by_cases hfails : ∃ line ∈ BatchLine.ofContent content, line.Fails window
  · rw [if_neg fun h => isEmpty_lineReports_iff.1 h hfails]
    exact ⟨rfl, by rw [if_pos hfails], by rw [if_pos hfails]; rfl⟩
  · have hempty := isEmpty_lineReports_iff.2 hfails
    rw [if_pos hempty]
    exact ⟨rfl, by rw [if_neg hfails, List.isEmpty_iff.1 hempty]; rfl, by rw [if_neg hfails]⟩

end Outcome

/-- **A batch is its lines, each evaluated on its own.**  The lines are those that stand in the
file, in its order.  Each prints what evaluating it alone prints, behind its formula, or fails
without printing anything and is reported under its number, with the report that evaluating it
alone makes.  The batch fails with code 1 if a line does, and reports how many did.  An honest cache
to start with, whatever it holds, makes no difference to any line. -/
theorem Invocation.run_batch (verbose : Bool) (file content : String) (window : Nat) :
    ∃ lines : List BatchLine,
      (lines.Pairwise (·.number < ·.number) ∧ ∀ line, line ∈ lines ↔ line.StandsIn content) ∧
      (Invocation.run ⟨verbose, .batch file window⟩ (.ok content)).IsBatchOf file window lines ∧
      (∀ line ∈ lines, line.Fails window → (line.alone window).printed = [] ∧
        ∃ report, (line.alone window).reports = [report]) ∧
      (∀ line ∈ lines, ¬line.Fails window → (line.alone window).reports = []) ∧
      ∀ cache : FormulaCache, cache.Honest →
        (BatchLine.evaluateAll window cache lines).1.map (·.values) =
          lines.map fun line => (line.evaluate window .empty).1 := by
  refine ⟨BatchLine.ofContent content,
    ⟨BatchLine.pairwise_number_ofContent content, fun _ => BatchLine.mem_ofContent_iff⟩, ?_,
    fun _ _ => Outcome.alone_of_fails, fun _ _ => Outcome.reports_alone_of_not_fails, ?_⟩
  · have hbatch := Outcome.isBatchOf_batch file content window
    unfold Invocation.run
    dsimp only
    by_cases hverbose : verbose = true
    · rw [if_pos hverbose]
      exact ⟨hbatch.printed, hbatch.reports, hbatch.code⟩
    · rw [if_neg hverbose]
      exact hbatch
  · intro cache hcache
    exact BatchLine.map_values_evaluateAll hcache _

end Branchwise
