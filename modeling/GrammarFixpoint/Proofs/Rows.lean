import GrammarFixpoint.CommandLine.Report
import GrammarFixpoint.Proofs.OneLine
import GrammarFixpoint.Proofs.Session

/-! A report in the text format, row by row. The rows are spelled out here with all their
characters, apart from the code that prints them: what a grammar shows of itself, what an
outcome shows and how an error is put. The printer gives these rows, each with a line feed
behind it and an empty one in front of every analysis. No other row is empty and none holds
a line feed of its own, for names hold no blank; so the rows fall into the blocks again that
they were printed as, and nothing in one block can be taken for another. -/

namespace GrammarFixpoint.CommandLine

/-- Rows as they are printed. -/
def typeset (rows : List String) : String := String.join (rows.map (· ++ "\n"))

/-- The blocks of what was printed, as rows. A block ends at an empty row, or where
nothing is left behind the last line feed. -/
def blocks (printed : String) : List (List String) :=
  ((printed.toList.splitOn '\n').splitOn []).dropLast.map (·.map String.ofList)

/-! ## What is shown -/

/-- Names between braces. The empty set has a sign of its own. -/
def braced (names : List String) : String :=
  if names = [] then "∅" else "\x7b" ++ ", ".intercalate names ++ "\x7d"

def ruleRow (entry : String × List String) : String :=
  entry.1 ++ " -> " ++ " | ".intercalate entry.2

def grammarRows (snapshot : Snapshot) : List String :=
  "## grammar" :: (snapshot.productions.map ruleRow ++
    ["start: " ++ snapshot.start, "variables: " ++ braced snapshot.variableNames,
      "terminals: " ++ braced snapshot.terminalNames])

/-- A step behind its number, which takes at least three columns, and its phase. -/
def stepRow (step : Step) (number : Nat) : String :=
  String.ofList (List.replicate (3 - (toString number).length) ' ') ++ toString number ++ ". [" ++
    step.phase.name ++ "] " ++ step.iteration ++ ": " ++ step.admitted ++ "  (" ++
    step.explanation ++ ")" ++
    if step.newVariables = [] then "" else " [+" ++ ", ".intercalate step.newVariables ++ "]"

def stepRows (showSteps : Bool) (steps : Trace) : List String :=
  if showSteps then
    "### steps" :: (steps.zipIdx 1).map fun (step, number) => stepRow step number
  else []

/-- A heading, then what was computed, and how. -/
def outcomeRows (showSteps : Bool) : Outcome → List String
  | .set title values steps => ("## " ++ title) :: braced values :: stepRows showSteps steps
  | .mapping title values steps =>
    ("## " ++ title) ::
      (values.map (fun (name, names) => name ++ ": " ++ braced names) ++ stepRows showSteps steps)
  | .grammar title value steps =>
    ("## " ++ title) :: (value.productions.map ruleRow ++ stepRows showSteps steps)

/-- What is shown of the response to an analysis. -/
def answerRows (showSteps : Bool) (algorithm : Algorithm) : Response Computed → List String
  | .success computed => outcomeRows showSteps computed.result
  | .error message => ["## " ++ algorithm.title, "[error] " ++ message]

/-- All rows of a report. -/
def reportRows (snapshot : Snapshot) (others : List (List String)) : List String :=
  grammarRows snapshot ++ others.flatMap ("" :: ·)

/-! ## What is printed -/

theorem typeset_cons (row : String) (rows : List String) :
    typeset (row :: rows) = line row ++ typeset rows := by
  rw [typeset, List.map_cons, String.join_cons]
  rfl

theorem typeset_append (rows others : List String) :
    typeset (rows ++ others) = typeset rows ++ typeset others := by
  rw [typeset, List.map_append, String.join_append]
  rfl

theorem typeset_nil : typeset [] = "" := rfl

theorem typeset_flatMap {α : Type} (f : α → List String) (xs : List α) :
    typeset (xs.flatMap f) = String.join (xs.map fun x => typeset (f x)) := by
  induction xs with
  | nil => rfl
  | cons x xs ih => rw [List.flatMap_cons, typeset_append, ih, List.map_cons, String.join_cons]

theorem typeset_map {α : Type} (f : α → String) (xs : List α) :
    typeset (xs.map f) = String.join (xs.map fun x => line (f x)) := by
  rw [typeset, List.map_map]
  rfl

theorem setNotation_eq (names : List String) : setNotation names = braced names := by
  cases names <;> rfl

theorem join_productionLine (entries : List (String × List String)) :
    String.join (entries.map TextReport.productionLine) = typeset (entries.map ruleRow) :=
  (typeset_map ruleRow entries).symm

theorem grammarBlock_eq (snapshot : Snapshot) :
    TextReport.grammarBlock snapshot = typeset (grammarRows snapshot) := by
  simp only [TextReport.grammarBlock, join_productionLine, setNotation_eq, grammarRows,
    typeset_cons, typeset_append, typeset_nil, String.append_empty, String.append_assoc]

theorem stepRow_eq (step : Step) (number : Nat) :
    stepRow step number =
      String.ofList (List.replicate (3 - (toString number).length) ' ') ++ toString number ++
        ". [" ++ step.phase.name ++ "] " ++ step.text := by
  simp only [stepRow, Step.text, String.append_assoc]
  cases step.newVariables <;> rfl

theorem stepLine_eq (step : Step) (number : Nat) :
    TextReport.stepLine step number = line (stepRow step number) := by
  rw [stepRow_eq, TextReport.stepLine]

theorem stepsBlock_eq (showSteps : Bool) (steps : Trace) :
    (if showSteps then TextReport.stepsBlock steps else "") = typeset (stepRows showSteps steps) := by
  cases showSteps with
  | false => rfl
  | true =>
    simp only [if_true, TextReport.stepsBlock, stepLine_eq, stepRows, typeset_cons, typeset_map]

theorem outcomeBlock_eq (showSteps : Bool) (outcome : Outcome) :
    line ("## " ++ outcome.title) ++ TextReport.resultLines outcome ++
        (if showSteps then TextReport.stepsBlock outcome.steps else "") =
      typeset (outcomeRows showSteps outcome) := by
  rw [stepsBlock_eq]
  cases outcome with
  | set title values steps =>
    simp only [Outcome.title, Outcome.steps, TextReport.resultLines, outcomeRows, typeset_cons,
      setNotation_eq, String.append_assoc]
  | mapping title values steps =>
    simp only [Outcome.title, Outcome.steps, TextReport.resultLines, outcomeRows, typeset_cons,
      typeset_append, typeset_map, setNotation_eq, String.append_assoc]
  | grammar title value steps =>
    simp only [Outcome.title, Outcome.steps, TextReport.resultLines, outcomeRows, typeset_cons,
      typeset_append, join_productionLine, String.append_assoc]

theorem answerBlock_eq (showSteps : Bool) (algorithm : Algorithm)
    (answer : Except SessionError Outcome) :
    TextReport.answerBlock showSteps algorithm answer =
      typeset ("" :: answerRows showSteps algorithm (.ofExcept (answer.map Computed.mk))) := by
  cases answer with
  | ok outcome =>
    have shown := outcomeBlock_eq showSteps outcome
    simp only [TextReport.answerBlock, Except.map, Response.ofExcept, answerRows, typeset_cons,
      ← shown, String.append_assoc]
  | error e =>
    simp only [TextReport.answerBlock, Except.map, Response.ofExcept, answerRows, typeset_cons,
      typeset_nil, String.append_empty, String.append_assoc]

/-! ## Taking a report apart -/

/-- The text can be a row of a block. -/
structure Row (text : String) : Prop where
  oneLine : OneLine text
  ne : text ≠ ""

namespace Row

variable {text text' : String}

theorem append (h : Row text) (own : OneLine text') : Row (text ++ text') where
  oneLine := OneLine.append_iff.mpr ⟨h.oneLine, own⟩
  ne := by simp [h.ne]

theorem prepend (own : OneLine text) (h : Row text') : Row (text ++ text') where
  oneLine := OneLine.append_iff.mpr ⟨own, h.oneLine⟩
  ne := by simp [h.ne]

theorem braced {names : List String} (own : ∀ name ∈ names, OneLine name) :
    Row (braced names) where
  oneLine := setNotation_eq names ▸ OneLine.setNotation own
  ne := by
    unfold CommandLine.braced
    split <;> simp

end Row

theorem splitOn_typeset {rows : List String} (own : ∀ row ∈ rows, OneLine row) :
    (typeset rows).toList.splitOn '\n' = (rows ++ [""]).map String.toList := by
  have ended : (typeset rows).toList = (rows.map String.toList).flatMap (· ++ ['\n']) := by
    simp [typeset, String.toList_join, List.flatMap_map]
  rw [ended, Text.splitOn_ended (List.forall_mem_map.mpr own), List.map_append]
  rfl

theorem append_flatMap_cons {α : Type} (sep : α) (first : List α) (others : List (List α)) :
    first ++ others.flatMap (sep :: ·) ++ [sep] = (first :: others).flatMap (· ++ [sep]) := by
  induction others generalizing first with
  | nil => simp
  | cons next others ih =>
    rw [List.flatMap_cons, List.flatMap_cons, ← ih next]
    simp

/-- Rows with an empty one in front of every further block fall into the blocks again. -/
theorem blocks_typeset {first : List String} {others : List (List String)}
    (rows : ∀ block ∈ first :: others, ∀ row ∈ block, Row row) :
    blocks (typeset (first ++ others.flatMap ("" :: ·))) = first :: others := by
  have own : ∀ row ∈ first ++ others.flatMap ("" :: ·), OneLine row := by
    intro row mem
    have listed : row ∈ (first :: others).flatMap (· ++ [""]) := by
      rw [← append_flatMap_cons]
      exact List.mem_append_left _ mem
    obtain ⟨block, shown, inside⟩ := List.mem_flatMap.mp listed
    rcases List.mem_append.mp inside with inside | blank
    · exact (rows block shown row inside).oneLine
    · rw [List.mem_singleton.mp blank]
      exact List.not_mem_nil
  have full : ∀ block ∈ (first :: others).map (List.map String.toList), [] ∉ block := by
    refine List.forall_mem_map.mpr fun block shown empty => ?_
    obtain ⟨row, inside, eq⟩ := List.mem_map.mp empty
    exact (rows block shown row inside).ne (String.toList_eq_nil_iff.mp eq)
  -- nothing is left behind the last line feed: this is the empty row that ends the last block
  have apart : (first ++ others.flatMap ("" :: ·) ++ [""]).map String.toList =
      ((first :: others).map (List.map String.toList)).flatMap (· ++ [[]]) := by
    rw [append_flatMap_cons, List.map_flatMap, List.flatMap_map]
    simp
  rw [blocks, splitOn_typeset own, apart, Text.splitOn_ended full, List.dropLast_concat]
  simp [Function.comp_def]

variable {g : Grammar} {algorithm : Algorithm} {outcome : Outcome}

theorem map_ruleRow (g : Grammar) : g.snapshot.productions.map ruleRow = g.rules.map Rule.text := by
  rw [Grammar.snapshot, List.map_map]
  rfl

theorem row_heading (algorithm : Algorithm) : Row ("## " ++ algorithm.title) where
  oneLine := by cases algorithm <;> decide
  ne := by simp

theorem row_ruleRow (hg : g.WellFormed) : ∀ row ∈ g.snapshot.productions.map ruleRow, Row row := by
  rw [map_ruleRow, List.forall_mem_map]
  intro rule mem
  obtain ⟨known, own⟩ := Grammar.mem_rules.mp mem
  have text := hg.oneLine_rule (hg.mem_order.mp known)
  rw [← own] at text
  exact ⟨text, by simp [Rule.text]⟩

theorem row_grammarRows (hg : g.WellFormed) : ∀ row ∈ grammarRows g.snapshot, Row row := by
  refine List.forall_mem_cons.mpr ⟨⟨by decide, by decide⟩, ?_⟩
  refine List.forall_mem_append.mpr ⟨row_ruleRow hg, ?_⟩
  simp only [List.forall_mem_cons, List.not_mem_nil, false_implies, implies_true, and_true]
  refine ⟨?_, ?_, ?_⟩
  · exact Row.append ⟨by decide, by decide⟩ (hg.oneLine_variable hg.start_mem)
  · refine Row.prepend (by decide) (.braced fun name mem => ?_)
    exact hg.oneLine_variable (Grammar.mem_variableNames.mp mem)
  · exact Row.prepend (by decide) (.braced fun name mem => hg.oneLine_terminal mem)

theorem row_stepRow {step : Step} (own : OneLine step.text) (number : Nat) :
    Row (stepRow step number) := by
  have padding : OneLine (String.ofList (List.replicate (3 - (toString number).length) ' ')) := by
    intro mem
    rw [String.toList_ofList] at mem
    exact absurd (List.eq_of_mem_replicate mem) (by decide)
  have phase : OneLine step.phase.name := by cases step.phase <;> decide
  rw [stepRow_eq]
  refine ⟨?_, by simp⟩
  simp only [OneLine.append_iff]
  exact ⟨⟨⟨⟨⟨padding, .toString_nat number⟩, by decide⟩, phase⟩, by decide⟩, own⟩

theorem row_stepRows {steps : Trace} (own : ∀ step ∈ steps, OneLine step.text)
    (showSteps : Bool) : ∀ row ∈ stepRows showSteps steps, Row row := by
  cases showSteps with
  | false => exact List.forall_mem_nil _
  | true =>
    refine List.forall_mem_cons.mpr ⟨⟨by decide, by decide⟩, ?_⟩
    rw [List.forall_mem_map]
    exact fun entry mem => row_stepRow (own entry.1 (List.fst_mem_of_mem_zipIdx mem)) entry.2

/-- The names in a set that is shown are variables. -/
theorem row_braced_variables (hg : g.WellFormed) {set : NameSet}
    (known : ∀ name ∈ set, name ∈ g.table) : Row (braced set.toList) :=
  .braced fun name mem => hg.oneLine_variable (known name (Std.ExtTreeSet.mem_toList.mp mem))

theorem row_setRows (hg : g.WellFormed) (algorithm : Algorithm) {result : Traced NameSet}
    {showSteps : Bool} (known : ∀ name ∈ result.value, name ∈ g.table)
    (steps : ∀ row ∈ stepRows showSteps result.trace, Row row) :
    ∀ row ∈ outcomeRows showSteps (.ofSet algorithm.title result), Row row :=
  List.forall_mem_cons.mpr
    ⟨row_heading algorithm, List.forall_mem_cons.mpr ⟨row_braced_variables hg known, steps⟩⟩

theorem row_outcomeRows (hg : g.WellFormed) (h : g.outcome algorithm = .ok outcome)
    (showSteps : Bool) : ∀ row ∈ outcomeRows showSteps outcome, Row row := by
  have steps := row_stepRows (hg.oneLine_steps h) showSteps
  cases algorithm with
  | terminating =>
    cases h
    exact row_setRows hg .terminating (fun _ => Grammar.mem_table_of_mem_saturate) steps
  | nullable =>
    cases h
    exact row_setRows hg .nullable (fun _ => Grammar.mem_table_of_mem_saturate) steps
  | reachable =>
    cases h
    exact row_setRows hg .reachable (fun _ => hg.closed.mem_table_of_mem_reachable) steps
  | unit =>
    cases h
    refine List.forall_mem_cons.mpr ⟨row_heading .unit, List.forall_mem_append.mpr ⟨?_, steps⟩⟩
    simp only [Grammar.unitClosures, List.map_map, List.forall_mem_map]
    intro origin mem
    have known := Grammar.mem_variableNames.mp mem
    refine Row.prepend (OneLine.append_iff.mpr ⟨hg.oneLine_variable known, by decide⟩) ?_
    exact row_braced_variables hg fun _ mem => hg.mem_table_of_mem_unitClosure known mem
  | useless =>
    obtain ⟨result, reduce, rfl⟩ := Grammar.outcome_useless h
    obtain ⟨productive, cuts⟩ := Grammar.exists_cuts hg reduce
    exact List.forall_mem_cons.mpr ⟨row_heading .useless,
      List.forall_mem_append.mpr ⟨row_ruleRow cuts.second.wellFormed, steps⟩⟩

/-- The response to what the plain session answers. -/
def respond (g : Grammar) (algorithm : Algorithm) : Response Computed :=
  .ofExcept ((PlainSession.run (some g) algorithm).map Computed.mk)

theorem respond_of_ok (h : g.outcome algorithm = .ok outcome) :
    respond g algorithm = .success ⟨outcome⟩ := by
  rw [respond, PlainSession.run, h]
  rfl

theorem respond_of_error {e : ReductionError} (h : g.outcome algorithm = .error e) :
    respond g algorithm = .error (SessionError.ofReduction e).message := by
  rw [respond, PlainSession.run, h]
  rfl

theorem row_answerRows (hg : g.WellFormed) (showSteps : Bool) (algorithm : Algorithm) :
    ∀ row ∈ answerRows showSteps algorithm (respond g algorithm), Row row := by
  cases computed : g.outcome algorithm with
  | ok outcome =>
    rw [respond_of_ok computed]
    exact row_outcomeRows hg computed showSteps
  | error e =>
    obtain ⟨-, rfl, -⟩ := Grammar.outcome_eq_error hg computed
    rw [respond_of_error computed]
    refine List.forall_mem_cons.mpr ⟨row_heading algorithm, List.forall_mem_singleton.mpr ?_⟩
    exact Row.append ⟨by decide, by decide⟩
      (.emptyLanguageMessage (hg.oneLine_variable hg.start_mem))

/-- The blocks of a report are the grammar and the answers. -/
theorem blocks_reportRows (hg : g.WellFormed) (showSteps : Bool) (listed : List Algorithm) :
    blocks (typeset (reportRows g.snapshot
      (listed.map fun algorithm => answerRows showSteps algorithm (respond g algorithm)))) =
        grammarRows g.snapshot ::
          listed.map fun algorithm => answerRows showSteps algorithm (respond g algorithm) := by
  refine blocks_typeset (List.forall_mem_cons.mpr ⟨row_grammarRows hg, ?_⟩)
  rw [List.forall_mem_map]
  exact fun algorithm _ => row_answerRows hg showSteps algorithm

end GrammarFixpoint.CommandLine
