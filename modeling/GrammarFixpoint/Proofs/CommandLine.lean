import GrammarFixpoint.Proofs.Boundary
import GrammarFixpoint.Proofs.Rows
import Mathlib.Data.List.Forall2

/-! The two formats of the command line. Each runs its own loop over the analyses listed,
on a session that remembers outcomes; what is remembered cannot be seen, so every answer in
either loop is the one that a session would give which has been asked for nothing else. The
exit code counts failures, and with a grammar loaded only the removal of useless variables
can fail: once for each time it is listed, where the language is empty. -/

namespace GrammarFixpoint.CommandLine

/-- What a fresh session answers to the text. -/
def freshLoad (text : String) : Response Loaded := (Session.empty.loadGrammar text).1

/-- What it answers when it is then asked for an analysis by name. -/
def freshRun (text : String) (algorithm : Algorithm) : Response Computed :=
  ((Session.empty.loadGrammar text).2.runAlgorithm algorithm.name).1

/-- The text is one line, from which the value is decoded. -/
structure LineOf {α : Type} (decode : Json → Option α) (value : α) (text : String) : Prop where
  no_line_feed : '\n' ∉ text.toList
  decoded : (Json.ofText? text).bind decode = some value

def failureMessage (failures : Nat) : String :=
  if failures = 1 then "1 analysis failed" else toString failures ++ " analyses failed"

/-! ## Fresh sessions -/

variable {text : String} {g : Grammar} {e : GrammarError}

theorem freshLoad_of_error (h : Grammar.ofText text = .error e) :
    freshLoad text = .error (SessionError.malformed e).message := by
  rw [freshLoad, Session.loadGrammar, Session.load, h]
  rfl

theorem freshLoad_of_ok (h : Grammar.ofText text = .ok g) :
    freshLoad text = .success ⟨"grammar loaded successfully", g.snapshot⟩ := by
  rw [freshLoad, Session.loadGrammar, Session.load, h]
  rfl

theorem runAlgorithm_eq {s : Session} (h : s.Faithful) (loaded : s.grammar? = some g)
    (algorithm : Algorithm) :
    (s.runAlgorithm algorithm.name).1 = respond g algorithm ∧
      (s.runAlgorithm algorithm.name).2.Faithful ∧
      (s.runAlgorithm algorithm.name).2.grammar? = some g := by
  obtain ⟨answer, faithful, grammar⟩ := h.runNamed algorithm.name
  have named : PlainSession.runNamed (some g) algorithm.name =
      PlainSession.run (some g) algorithm := by
    rw [PlainSession.runNamed, Algorithm.ofName?_name]
  refine ⟨?_, faithful, grammar.trans loaded⟩
  rw [respond, ← named, ← loaded, ← answer]
  rfl

theorem freshRun_of_ok (h : Grammar.ofText text = .ok g) (algorithm : Algorithm) :
    freshRun text algorithm = respond g algorithm := by
  have session : (Session.empty.loadGrammar text).2 = ⟨some ⟨g, []⟩⟩ := by
    rw [Session.loadGrammar, Session.load, h]
  rw [freshRun, session]
  exact (runAlgorithm_eq (Session.faithful_new g) rfl algorithm).1

/-! ## The two loops -/

theorem answers_cons (s : Session) (algorithm : Algorithm) (listed : List Algorithm) :
    TextReport.answers s (algorithm :: listed) =
      (algorithm, (s.run algorithm).1) :: TextReport.answers (s.run algorithm).2 listed := rfl

theorem responses_cons (s : Session) (algorithm : Algorithm) (listed : List Algorithm) :
    JsonReport.responses s (algorithm :: listed) =
      (s.runAlgorithm algorithm.name).1 ::
        JsonReport.responses (s.runAlgorithm algorithm.name).2 listed := rfl

/-- A loop goes on with a session that still holds the grammar and remembers nothing false. -/
theorem answers_eq {s : Session} (h : s.Faithful) (loaded : s.grammar? = some g)
    (listed : List Algorithm) :
    TextReport.answers s listed =
      listed.map fun algorithm => (algorithm, PlainSession.run (some g) algorithm) := by
  induction listed generalizing s with
  | nil => rfl
  | cons algorithm listed ih =>
    obtain ⟨answer, faithful, grammar⟩ := h.run algorithm
    rw [loaded] at answer grammar
    rw [answers_cons, answer, ih faithful grammar, List.map_cons]

theorem responses_eq {s : Session} (h : s.Faithful) (loaded : s.grammar? = some g)
    (listed : List Algorithm) :
    JsonReport.responses s listed = listed.map (respond g) := by
  induction listed generalizing s with
  | nil => rfl
  | cons algorithm listed ih =>
    obtain ⟨response, faithful, grammar⟩ := runAlgorithm_eq h loaded algorithm
    rw [responses_cons, response, ih faithful grammar, List.map_cons]

/-! ## Failures -/

def fails (g : Grammar) (algorithm : Algorithm) : Bool :=
  !(PlainSession.run (some g) algorithm).isOk

/-- Only the removal of useless variables can fail, and does so if nothing is generated. -/
theorem fails_iff (built : g.Built) (algorithm : Algorithm) :
    fails g algorithm = true ↔ algorithm = .useless ∧ ∀ word, ¬ g.Generates g.start word := by
  have hg := built.wellFormed
  rw [← Grammar.eliminateUseless_eq_error_iff hg]
  cases computed : g.outcome algorithm with
  | error e =>
    obtain ⟨rfl, -, unproductive⟩ := Grammar.outcome_eq_error hg computed
    refine iff_of_true ?_ ⟨rfl, Grammar.eliminateUseless_eq_error unproductive⟩
    rw [fails, PlainSession.run, computed]
    rfl
  | ok outcome =>
    refine iff_of_false ?_ ?_
    · rw [fails, PlainSession.run, computed]
      exact Bool.false_ne_true
    · rintro ⟨rfl, empty⟩
      obtain ⟨result, reduce, -⟩ := Grammar.outcome_useless computed
      rw [empty] at reduce
      cases reduce

theorem failures_answers (g : Grammar) (listed : List Algorithm) :
    TextReport.failures
      (listed.map fun algorithm => (algorithm, PlainSession.run (some g) algorithm)) =
      listed.countP (fails g) := by
  rw [TextReport.failures, List.countP_map]
  rfl

theorem failures_responses (g : Grammar) (listed : List Algorithm) :
    JsonReport.failures (listed.map (respond g)) = listed.countP (fails g) := by
  rw [JsonReport.failures, List.countP_map]
  refine List.countP_congr fun algorithm _ => ?_
  rw [Function.comp, respond, fails]
  cases PlainSession.run (some g) algorithm with
  | ok outcome => rfl
  | error e => rfl

theorem countP_fails_eq_zero_iff (built : g.Built) (listed : List Algorithm) :
    listed.countP (fails g) = 0 ↔
      ¬ ((∀ word, ¬ g.Generates g.start word) ∧ .useless ∈ listed) := by
  simp only [List.countP_eq_zero, fails_iff built]
  grind

theorem countP_fails_of_empty (built : g.Built) (empty : ∀ word, ¬ g.Generates g.start word)
    (listed : List Algorithm) : listed.countP (fails g) = listed.count .useless := by
  refine List.countP_congr fun algorithm _ => ?_
  rw [fails_iff built, beq_iff_eq, and_iff_left empty]

theorem conclude_code (stdout : String) (failures : Nat) :
    (conclude stdout failures).code = if failures = 0 then 0 else 1 := by
  match failures with
  | 0 => rfl
  | 1 => rfl
  | n + 2 => rfl

theorem conclude_code_eq_zero_iff {stdout : String} {failures : Nat} :
    (conclude stdout failures).code = 0 ↔ failures = 0 := by
  simp [conclude_code]

theorem conclude_stdout (stdout : String) (failures : Nat) :
    (conclude stdout failures).stdout = stdout := by
  unfold conclude
  split <;> rfl

theorem conclude_stderr (stdout : String) (failures : Nat) :
    (conclude stdout failures).stderr =
      if failures = 0 then "" else "Error: " ++ failureMessage failures ++ "\n" := by
  match failures with
  | 0 => rfl
  | 1 => rfl
  | n + 2 => rfl

/-! ## Reports -/

/-- What the reports on one text, with the same analyses listed, have to do with each other
and with fresh sessions. -/
structure ReportsAgree (listed : List Algorithm) (showSteps : Bool) (text : String)
    (asText asJson : Report) : Prop where
  code : asText.code = asJson.code
  succeeds_iff : asText.code = 0 ↔ ∃ g, Grammar.ofText text = .ok g ∧
    ¬ ((∀ word, ¬ g.Generates g.start word) ∧ .useless ∈ listed)
  silent : asText.code = 0 → asText.stderr = "" ∧ asJson.stderr = ""
  failed : ∀ g, Grammar.ofText text = .ok g → (∀ word, ¬ g.Generates g.start word) →
    .useless ∈ listed →
      asText.stderr = "Error: " ++ failureMessage (listed.count .useless) ++ "\n" ∧
      asJson.stderr = "Error: " ++ failureMessage (listed.count .useless) ++ "\n"
  refused : ∀ message, freshLoad text = .error message →
    asText.stdout = "" ∧
    (∃ first, asJson.stdout = typeset [first] ∧
      LineOf Response.loadedOfJson? (.error message) first) ∧
    asJson.stderr = "Error: " ++ message ++ "\n" ∧
    ∀ cause, Grammar.ofText text = .error cause →
      asText.stderr = "Error: " ++ message ++ "\n\nCaused by:\n    " ++ cause.message ++ "\n"
  accepted : ∀ loaded, freshLoad text = .success loaded →
    let answers := listed.map fun algorithm =>
      answerRows showSteps algorithm (freshRun text algorithm)
    asText.stdout = typeset (reportRows loaded.data answers) ∧
    blocks asText.stdout = grammarRows loaded.data :: answers ∧
    ∃ first rest, asJson.stdout = typeset (first :: rest) ∧
      LineOf Response.loadedOfJson? (.success loaded) first ∧
      List.Forall₂ (fun algorithm => LineOf Response.computedOfJson? (freshRun text algorithm))
        listed rest

theorem textReport_of_error (h : Grammar.ofText text = .error e) (invocation : Invocation) :
    TextReport.report invocation text =
      ⟨1, "", errorText (SessionError.malformed e).message (some e.message)⟩ := by
  rw [TextReport.report, Session.load, h]

theorem textReport_of_ok (h : Grammar.ofText text = .ok g) (invocation : Invocation) :
    TextReport.report invocation text =
      conclude
        (typeset (reportRows g.snapshot (invocation.requested.map fun algorithm =>
          answerRows invocation.showSteps algorithm (respond g algorithm))))
        (invocation.requested.countP (fails g)) := by
  rw [TextReport.report, Session.load, h]
  simp only [answers_eq (Session.faithful_new g) rfl, List.map_map, failures_answers]
  rw [reportRows, typeset_append, List.flatMap_map, typeset_flatMap, grammarBlock_eq]
  simp only [Function.comp_def, answerBlock_eq, respond]

theorem jsonReport_of_error (h : Grammar.ofText text = .error e) (invocation : Invocation) :
    JsonReport.report invocation text =
      ⟨1, line (freshLoad text).loadedToJson.compact,
        errorText (SessionError.malformed e).message none⟩ := by
  rw [freshLoad_of_error h, JsonReport.report, Session.loadGrammar, Session.load, h]
  rfl

theorem jsonReport_of_ok (h : Grammar.ofText text = .ok g) (invocation : Invocation) :
    JsonReport.report invocation text =
      conclude
        (typeset ((freshLoad text).loadedToJson.compact ::
          invocation.requested.map fun algorithm => (respond g algorithm).computedToJson.compact))
        (invocation.requested.countP (fails g)) := by
  rw [freshLoad_of_ok h, JsonReport.report, Session.loadGrammar, Session.load, h]
  simp only [Except.map, Response.ofExcept, responses_eq (Session.faithful_new g) rfl,
    List.map_map, failures_responses, typeset_cons, typeset_map]
  rfl

theorem lineOf_loaded (response : Response Loaded) :
    LineOf Response.loadedOfJson? response response.loadedToJson.compact where
  no_line_feed := response.loaded_numberless.no_line_feed
  decoded := Response.loaded_lossless.decode_printed response

theorem lineOf_computed (response : Response Computed) :
    LineOf Response.computedOfJson? response response.computedToJson.compact where
  no_line_feed := response.computed_numberless.no_line_feed
  decoded := Response.computed_lossless.decode_printed response

theorem reportsAgree_of_error (h : Grammar.ofText text = .error e) (invocation : Invocation) :
    ReportsAgree invocation.requested invocation.showSteps text
      (TextReport.report invocation text) (JsonReport.report invocation text) := by
  rw [textReport_of_error h, jsonReport_of_error h]
  have response := freshLoad_of_error h
  refine ⟨rfl, by simp [h], nofun, ?_, ?_, ?_⟩
  · intro g taken
    rw [h] at taken
    contradiction
  · intro message refused
    have own : message = (SessionError.malformed e).message := by
      rw [response, Response.error.injEq] at refused
      exact refused.symm
    refine ⟨rfl, ⟨_, rfl, ?_⟩, own ▸ rfl, ?_⟩
    · rw [← refused]
      exact lineOf_loaded (freshLoad text)
    · intro cause read
      rw [h, Except.error.injEq] at read
      rw [own, read]
      rfl
  · intro loaded accepted
    rw [response] at accepted
    contradiction

theorem reportsAgree_of_ok (h : Grammar.ofText text = .ok g) (invocation : Invocation) :
    ReportsAgree invocation.requested invocation.showSteps text
      (TextReport.report invocation text) (JsonReport.report invocation text) := by
  rw [textReport_of_ok h, jsonReport_of_ok h]
  have built : g.Built := .text h
  have response := freshLoad_of_ok h
  refine ⟨?_, ?_, ?_, ?_, ?_, ?_⟩
  · rw [conclude_code, conclude_code]
  · rw [conclude_code_eq_zero_iff, countP_fails_eq_zero_iff built]
    constructor
    · exact fun none_failed => ⟨g, h, none_failed⟩
    · intro ⟨g', taken, none_failed⟩
      obtain rfl : g = g' := by simpa [h] using taken
      exact none_failed
  · intro none_failed
    rw [conclude_code_eq_zero_iff] at none_failed
    rw [conclude_stderr, conclude_stderr, if_pos none_failed]
    exact ⟨rfl, rfl⟩
  · intro g' taken empty mem
    obtain rfl : g = g' := by simpa [h] using taken
    have some_failed : invocation.requested.countP (fails g) ≠ 0 := by
      rw [Ne, countP_fails_eq_zero_iff built, not_not]
      exact ⟨empty, mem⟩
    rw [conclude_stderr, conclude_stderr, if_neg some_failed, countP_fails_of_empty built empty]
    exact ⟨rfl, rfl⟩
  · intro message refused
    rw [response] at refused
    contradiction
  · intro loaded accepted answers
    have data : loaded.data = g.snapshot := by
      rw [response, Response.success.injEq] at accepted
      rw [← accepted]
    have shown : answers = invocation.requested.map fun algorithm =>
        answerRows invocation.showSteps algorithm (respond g algorithm) := by
      simp only [answers, freshRun_of_ok h]
    have lines : List.Forall₂
        (fun algorithm => LineOf Response.computedOfJson? (freshRun text algorithm))
        invocation.requested
        (invocation.requested.map fun algorithm => (respond g algorithm).computedToJson.compact) := by
      rw [List.forall₂_map_right_iff, List.forall₂_same]
      intro algorithm _
      rw [freshRun_of_ok h]
      exact lineOf_computed (respond g algorithm)
    have first : LineOf Response.loadedOfJson? (.success loaded)
        (freshLoad text).loadedToJson.compact := by
      rw [← accepted]
      exact lineOf_loaded (freshLoad text)
    rw [conclude_stdout, conclude_stdout, data, shown]
    exact ⟨rfl, blocks_reportRows built.wellFormed _ _, _, _, rfl, first, lines⟩

theorem requested_eq (invocation : Invocation) :
    invocation.requested =
      if invocation.algorithms = [] then [.terminating, .nullable, .reachable, .unit, .useless]
      else invocation.algorithms := by
  unfold Invocation.requested
  split
  · next open_list => rw [if_pos open_list]; rfl
  · next listed => rw [if_neg listed]

/-- The formats agree with fresh sessions, and so with each other. Where no analysis is listed
all five are meant. -/
theorem reports_agree (invocation : Invocation) (text : String) :
    ReportsAgree
      (if invocation.algorithms = [] then [.terminating, .nullable, .reachable, .unit, .useless]
        else invocation.algorithms)
      invocation.showSteps text
      ({ invocation with format := .text }.report (.ok text))
      ({ invocation with format := .json }.report (.ok text)) := by
  rw [← requested_eq]
  cases read : Grammar.ofText text with
  | error e => exact reportsAgree_of_error read invocation
  | ok g => exact reportsAgree_of_ok read invocation

/-- Listed twice, a removal that fails is shown and counted twice. -/
theorem reports_agree_of_empty_language :
    let invocation : Invocation := ⟨[.useless, .unit, .useless], .text, false, .standardInput⟩
    let report := invocation.report (.ok "S -> S")
    report.stderr = "Error: 2 analyses failed\n" ∧
      blocks report.stdout =
        [["## grammar", "S -> S", "start: S", "variables: \x7bS\x7d", "terminals: ∅"],
          ["## Grammar without useless variables", "[error] " ++ emptyLanguageMessage "S"],
          ["## Unit closures", "S: \x7bS\x7d"],
          ["## Grammar without useless variables", "[error] " ++ emptyLanguageMessage "S"]] := by
  intro invocation report
  have agree := reports_agree invocation "S -> S"
  obtain ⟨g, read⟩ : ∃ g, Grammar.ofText "S -> S" = .ok g := ⟨_, rfl⟩
  have failing : report.code ≠ 0 := by decide
  have empty : ∀ word, ¬ g.Generates g.start word := by
    by_contra productive
    exact failing (agree.succeeds_iff.mpr ⟨g, read, fun h => productive h.1⟩)
  obtain ⟨error, -⟩ := agree.failed g read empty (by decide)
  obtain ⟨-, shown, -⟩ := agree.accepted
    ⟨"grammar loaded successfully", ⟨"S", ["S"], [], [("S", ["S"])]⟩⟩ (by decide)
  exact ⟨error.trans (by decide), shown.trans (by decide)⟩

end GrammarFixpoint.CommandLine
