import GrammarFixpoint.Proofs.Reduction
import GrammarFixpoint.Session.Basic

/-! What a session answers. The plain session below keeps nothing but the grammar
taken in last and computes every outcome anew. A session that remembers outcomes
answers the same: whatever it remembers is what its own grammar gives, for the
outcomes go with the grammar when a text replaces it, and neither a refused text
nor a failed analysis writes anything. Later answers then depend on earlier
operations through the grammar only. -/

namespace GrammarFixpoint

/-- Does the operation take in a text? -/
def Session.Operation.loads : Operation → Bool
  | .load _ | .loadGrammar _ => true
  | .run _ | .runAlgorithm _ | .grammar => false

namespace PlainSession

/-- The grammar after an operation: the text's own, where one was taken in. -/
def next (current : Option Grammar) : Session.Operation → Option Grammar
  | .load text | .loadGrammar text =>
    match Grammar.ofText text with
    | .ok g => some g
    | .error _ => current
  | .run _ | .runAlgorithm _ | .grammar => current

def load (text : String) : Except SessionError Snapshot :=
  match Grammar.ofText text with
  | .ok g => .ok g.snapshot
  | .error e => .error (.malformed e)

def run (current : Option Grammar) (algorithm : Algorithm) : Except SessionError Outcome :=
  match current with
  | none => .error .noGrammarLoaded
  | some g => (g.outcome algorithm).mapError .ofReduction

/-- The name comes before the grammar. -/
def runNamed (current : Option Grammar) (name : String) : Except SessionError Outcome :=
  match Algorithm.ofName? name with
  | none => .error (.unknownAlgorithm name)
  | some algorithm => run current algorithm

def answer (current : Option Grammar) : Session.Operation → Session.Answer
  | .load text => .loaded (load text)
  | .loadGrammar text =>
    .loadResponse (.ofExcept ((load text).map fun data => ⟨"grammar loaded successfully", data⟩))
  | .run name => .computed (runNamed current name)
  | .runAlgorithm name => .runResponse (.ofExcept ((runNamed current name).map Computed.mk))
  | .grammar => .grammar current

/-- The answers to operations in a row. -/
def answers (current : Option Grammar) : List Session.Operation → List Session.Answer
  | [] => []
  | operation :: operations =>
    answer current operation :: answers (next current operation) operations

/-- The grammar of the latest text that was taken in. -/
def latest (operations : List Session.Operation) : Option Grammar := operations.foldl next none

/-- Operations keep to grammars that were read from a text. -/
theorem built_of_next {current : Option Grammar} (built : ∀ g, current = some g → g.Built)
    (operation : Session.Operation) {g : Grammar} (h : next current operation = some g) :
    g.Built := by
  cases operation with
  | load text | loadGrammar text =>
    rw [next] at h
    split at h
    · next read =>
      cases h
      exact .text read
    · exact built g h
  | run | runAlgorithm | grammar => exact built g h

theorem built_of_foldl {current : Option Grammar} (built : ∀ g, current = some g → g.Built)
    (operations : List Session.Operation) {g : Grammar}
    (h : operations.foldl next current = some g) : g.Built := by
  induction operations generalizing current with
  | nil => exact built g h
  | cons operation operations ih => exact ih (fun _ => built_of_next built operation) h

theorem latest_append (before later : List Session.Operation) :
    latest (before ++ later) = later.foldl next (latest before) :=
  List.foldl_append

/-- Only what is taken in counts. -/
theorem latest_filter (operations : List Session.Operation) :
    latest (operations.filter Session.Operation.loads) = latest operations := by
  have skip (current : Option Grammar) (operation : Session.Operation) :
      (if operation.loads then next current operation else current) = next current operation := by
    cases operation <;> rfl
  rw [latest, latest, List.foldl_filter]
  simp only [skip]

/-- A text that is refused leaves the grammar as it was. -/
theorem latest_refused {text : String} {e : GrammarError} (h : Grammar.ofText text = .error e)
    (before : List Session.Operation) :
    latest (before ++ [.load text]) = latest before ∧
      latest (before ++ [.loadGrammar text]) = latest before := by
  simp only [latest_append, List.foldl_cons, List.foldl_nil, next, h, and_self]

theorem built_of_latest {operations : List Session.Operation} {g : Grammar}
    (h : latest operations = some g) : g.Built := by
  refine built_of_foldl (fun g none_eq => ?_) operations h
  cases none_eq

end PlainSession

namespace Session

/-- The answers to operations in a row. -/
def answers (s : Session) : List Operation → List Answer
  | [] => []
  | operation :: operations => (s.perform operation).1 :: (s.perform operation).2.answers operations

def after (s : Session) (operations : List Operation) : Session :=
  operations.foldl (fun s operation => (s.perform operation).2) s

/-- What the session remembers is what its grammar gives. -/
def Faithful (s : Session) : Prop :=
  ∀ w, s.workspace? = some w → ∀ algorithm outcome, w.outcome? algorithm = some outcome →
    w.grammar.outcome algorithm = .ok outcome

variable {s : Session}

theorem faithful_empty : empty.Faithful := by
  intro w h
  cases h

/-- A grammar that is new has no outcomes yet. -/
theorem faithful_new (g : Grammar) : Faithful ⟨some ⟨g, []⟩⟩ := by
  intro w h
  cases h
  intro algorithm outcome remembered
  cases remembered

theorem Faithful.load (h : s.Faithful) (text : String) :
    (s.load text).1 = PlainSession.load text ∧ (s.load text).2.Faithful ∧
      (s.load text).2.grammar? = PlainSession.next s.grammar? (.load text) := by
  cases read : Grammar.ofText text with
  | error e =>
    have refused : s.load text = (.error (.malformed e), s) := by rw [Session.load, read]
    rw [refused, PlainSession.load, PlainSession.next, read]
    exact ⟨rfl, h, rfl⟩
  | ok g =>
    have taken : s.load text = (.ok g.snapshot, ⟨some ⟨g, []⟩⟩) := by rw [Session.load, read]
    rw [taken, PlainSession.load, PlainSession.next, read]
    exact ⟨rfl, faithful_new g, rfl⟩

section Run

variable {w : Workspace} {algorithm : Algorithm}

theorem run_none (h : s.workspace? = none) :
    s.run algorithm = (.error .noGrammarLoaded, s) := by
  rw [run, h]

theorem run_remembered (h : s.workspace? = some w) {outcome : Outcome}
    (remembered : w.outcome? algorithm = some outcome) :
    s.run algorithm = (.ok outcome, s) := by
  simp only [run, h, remembered]

theorem run_failed (h : s.workspace? = some w) (absent : w.outcome? algorithm = none)
    {e : ReductionError} (failed : w.grammar.outcome algorithm = .error e) :
    s.run algorithm = (.error (.ofReduction e), s) := by
  simp only [run, h, absent, failed]

theorem run_computed (h : s.workspace? = some w) (absent : w.outcome? algorithm = none)
    {outcome : Outcome} (computed : w.grammar.outcome algorithm = .ok outcome) :
    s.run algorithm =
      (.ok outcome, ⟨some { w with outcomes := (algorithm, outcome) :: w.outcomes }⟩) := by
  simp only [run, h, absent, computed]

/-- An outcome that its own grammar gives may be remembered. -/
theorem Faithful.remember (h : s.Faithful) (loaded : s.workspace? = some w) {outcome : Outcome}
    (computed : w.grammar.outcome algorithm = .ok outcome) :
    Faithful ⟨some { w with outcomes := (algorithm, outcome) :: w.outcomes }⟩ := by
  intro w' same other outcome' found
  cases same
  rw [Workspace.outcome?, List.lookup_cons] at found
  split at found
  · next eq =>
    cases found
    rw [beq_iff_eq.mp eq]
    exact computed
  · exact h w loaded other outcome' found

/-- An outcome that is remembered is the one that would be computed; one that is
computed is remembered, and an error is not. -/
theorem Faithful.run (h : s.Faithful) (algorithm : Algorithm) :
    (s.run algorithm).1 = PlainSession.run s.grammar? algorithm ∧
      (s.run algorithm).2.Faithful ∧ (s.run algorithm).2.grammar? = s.grammar? := by
  cases loaded : s.workspace? with
  | none =>
    rw [run_none loaded, grammar?, loaded]
    exact ⟨rfl, h, rfl⟩
  | some w =>
    have grammar : s.grammar? = some w.grammar := by rw [grammar?, loaded, Option.map_some]
    rw [grammar, PlainSession.run]
    cases remembered : w.outcome? algorithm with
    | some outcome =>
      rw [run_remembered loaded remembered, h w loaded algorithm outcome remembered]
      exact ⟨rfl, h, grammar⟩
    | none =>
      cases computed : w.grammar.outcome algorithm with
      | error e =>
        rw [run_failed loaded remembered computed]
        exact ⟨rfl, h, grammar⟩
      | ok outcome =>
        rw [run_computed loaded remembered computed]
        exact ⟨rfl, h.remember loaded computed, rfl⟩

end Run

theorem Faithful.runNamed (h : s.Faithful) (name : String) :
    (s.runNamed name).1 = PlainSession.runNamed s.grammar? name ∧
      (s.runNamed name).2.Faithful ∧ (s.runNamed name).2.grammar? = s.grammar? := by
  unfold Session.runNamed PlainSession.runNamed
  cases Algorithm.ofName? name with
  | none => exact ⟨rfl, h, rfl⟩
  | some algorithm => exact h.run algorithm

/-- One operation answers as the plain session does and keeps to it. -/
theorem Faithful.perform (h : s.Faithful) (operation : Operation) :
    (s.perform operation).1 = PlainSession.answer s.grammar? operation ∧
      (s.perform operation).2.Faithful ∧
      (s.perform operation).2.grammar? = PlainSession.next s.grammar? operation := by
  cases operation with
  | load text =>
    obtain ⟨answer, faithful, grammar⟩ := h.load text
    exact ⟨congrArg Answer.loaded answer, faithful, grammar⟩
  | loadGrammar text =>
    obtain ⟨answer, faithful, grammar⟩ := h.load text
    refine ⟨?_, faithful, grammar⟩
    rw [PlainSession.answer, ← answer]
    rfl
  | run name =>
    obtain ⟨answer, faithful, grammar⟩ := h.runNamed name
    exact ⟨congrArg Answer.computed answer, faithful, grammar⟩
  | runAlgorithm name =>
    obtain ⟨answer, faithful, grammar⟩ := h.runNamed name
    refine ⟨?_, faithful, grammar⟩
    rw [PlainSession.answer, ← answer]
    rfl
  | grammar => exact ⟨rfl, h, rfl⟩

theorem Faithful.answers (h : s.Faithful) (operations : List Operation) :
    s.answers operations = PlainSession.answers s.grammar? operations := by
  induction operations generalizing s with
  | nil => rfl
  | cons operation operations ih =>
    obtain ⟨answer, faithful, grammar⟩ := h.perform operation
    rw [Session.answers, PlainSession.answers, answer, ih faithful, grammar]

theorem Faithful.after (h : s.Faithful) (operations : List Operation) :
    (s.after operations).Faithful ∧
      (s.after operations).grammar? = operations.foldl PlainSession.next s.grammar? := by
  induction operations generalizing s with
  | nil => exact ⟨h, rfl⟩
  | cons operation operations ih =>
    obtain ⟨-, faithful, grammar⟩ := h.perform operation
    rw [List.foldl_cons, ← grammar]
    exact ih faithful

/-- Whatever was asked before, later answers are those of the plain session that
starts from the latest grammar. -/
theorem answers_after (before later : List Operation) :
    (empty.after before).answers later =
      PlainSession.answers (PlainSession.latest before) later := by
  obtain ⟨faithful, grammar⟩ := faithful_empty.after before
  rw [faithful.answers, grammar]
  rfl

theorem run_after (before : List Operation) (algorithm : Algorithm) :
    ((empty.after before).run algorithm).1 =
      PlainSession.run (PlainSession.latest before) algorithm := by
  obtain ⟨faithful, grammar⟩ := faithful_empty.after before
  rw [(faithful.run algorithm).1, grammar]
  rfl

theorem runAlgorithm_after (before : List Operation) (name : String) :
    ((empty.after before).runAlgorithm name).1 =
      .ofExcept ((PlainSession.runNamed (PlainSession.latest before) name).map Computed.mk) := by
  obtain ⟨faithful, grammar⟩ := faithful_empty.after before
  obtain ⟨answer, -⟩ := faithful.runNamed name
  rw [← show _ = PlainSession.latest before from grammar, ← answer]
  rfl

theorem useless_fails_iff {g : Grammar} (built : g.Built) :
    PlainSession.run (some g) .useless = .error (.emptyLanguage g.start) ↔
      ∀ word, ¬ g.Generates g.start word := by
  rw [← Grammar.eliminateUseless_eq_error_iff built.wellFormed, PlainSession.run, Grammar.outcome]
  cases g.eliminateUseless with
  | ok reduced => simp [Except.map]
  | error e => cases e <;> simp [Except.map, SessionError.ofReduction]

/-- What a session remembers cannot be seen in its answers: they are those of the
plain session, whatever was loaded, refused or run before. -/
theorem answers_eq_plain :
    (∀ operations, empty.answers operations = PlainSession.answers none operations) ∧
    ∀ before : List Operation,
      (PlainSession.latest before = none → ∀ algorithm,
        ((empty.after before).run algorithm).1 = .error .noGrammarLoaded) ∧
      (∀ g, PlainSession.latest before = some g → ∀ algorithm,
        ((empty.after before).run algorithm).1 = (g.outcome algorithm).mapError .ofReduction) ∧
      (∀ g, PlainSession.latest before = some g →
        (((empty.after before).run .useless).1 = .error (.emptyLanguage g.start) ↔
          ∀ word, ¬ g.Generates g.start word)) ∧
      (∀ name, Algorithm.ofName? name = none →
        ((empty.after before).runAlgorithm name).1 =
          .error (SessionError.unknownAlgorithm name).message) ∧
      (∀ text e, Grammar.ofText text = .error e → ∀ later,
        (empty.after (before ++ [.load text])).answers later =
          (empty.after before).answers later ∧
        (empty.after (before ++ [.loadGrammar text])).answers later =
          (empty.after before).answers later) ∧
      ∀ before', before'.filter Operation.loads = before.filter Operation.loads → ∀ later,
        (empty.after before').answers later = (empty.after before).answers later := by
  refine ⟨faithful_empty.answers, ?_⟩
  intro before
  refine ⟨?_, ?_, ?_, ?_, ?_, ?_⟩
  · intro none_loaded algorithm
    rw [run_after, none_loaded]
    rfl
  · intro g loaded algorithm
    rw [run_after, loaded]
    rfl
  · intro g loaded
    rw [run_after, loaded]
    exact useless_fails_iff (PlainSession.built_of_latest loaded)
  · intro name unknown
    rw [runAlgorithm_after, PlainSession.runNamed, unknown]
    rfl
  · intro text e refused later
    obtain ⟨same, same'⟩ := PlainSession.latest_refused refused before
    simp only [answers_after, same, same', and_self]
  · intro before' same later
    rw [answers_after, answers_after, ← PlainSession.latest_filter before', same,
      PlainSession.latest_filter]

/-- A loop is loaded, a text is refused, and a run fails. -/
def loopHistory : List Operation :=
  [.load "S -> A\nA -> A", .run "useless", .loadGrammar "S => a"]

theorem latest_loopHistory : ∃ g, PlainSession.latest loopHistory = some g ∧ g.start = "S" ∧
    ∀ word, ¬ g.Generates g.start word := by
  have shown : ((PlainSession.latest loopHistory).map fun g =>
      (g.start, g.terminating.value.contains g.start)) = some ("S", false) := by decide
  cases loaded : PlainSession.latest loopHistory with
  | none => rw [loaded] at shown; cases shown
  | some g =>
    rw [loaded, Option.map_some, Option.some.injEq, Prod.mk.injEq] at shown
    obtain ⟨start, unproductive⟩ := shown
    refine ⟨g, rfl, start, ?_⟩
    intro word steps
    rw [NameSet.contains_eq_false_iff, Grammar.mem_terminating_iff] at unproductive
    exact unproductive ⟨word, steps⟩

theorem answers_eq_plain_of_loopHistory :
    ((empty.after []).run .unit).1 = .error .noGrammarLoaded ∧
    (∃ g, PlainSession.latest loopHistory = some g ∧
      ((empty.after loopHistory).run .nullable).1 =
        (g.outcome .nullable).mapError .ofReduction) ∧
    ((empty.after loopHistory).run .useless).1 = .error (.emptyLanguage "S") ∧
    ((empty.after loopHistory).runAlgorithm "Unit").1 =
      .error (SessionError.unknownAlgorithm "Unit").message ∧
    (∀ later, (empty.after (loopHistory ++ [.load "S"])).answers later =
      (empty.after loopHistory).answers later) ∧
    ∀ later, (empty.after (.run "unit" :: loopHistory)).answers later =
      (empty.after loopHistory).answers later := by
  obtain ⟨g, loaded, start, empty_language⟩ := latest_loopHistory
  obtain ⟨none_loaded, -⟩ := answers_eq_plain.2 []
  obtain ⟨-, fresh, useless, unknown, refused, runs⟩ := answers_eq_plain.2 loopHistory
  refine ⟨none_loaded rfl .unit, ⟨g, loaded, fresh g loaded .nullable⟩, ?_, unknown "Unit" (by decide),
    ?_, runs (.run "unit" :: loopHistory) (by decide)⟩
  · rw [← start]
    exact (useless g loaded).mpr empty_language
  · have malformed : ∃ e, Grammar.ofText "S" = .error e := by
      have failed : (Grammar.ofText "S").toOption.isNone = true := by decide
      cases read : Grammar.ofText "S" with
      | error e => exact ⟨e, rfl⟩
      | ok g => rw [read] at failed; cases failed
    obtain ⟨e, malformed⟩ := malformed
    intro later
    exact (refused "S" e malformed later).1

end Session

end GrammarFixpoint
