import GrammarFixpoint.Proofs.Audit
import GrammarFixpoint.Proofs.Session
import GrammarFixpoint.Session.Log

/-! What the log of a session tells. A recorder notes each step that it writes down, so
the notes on an analysis are its trace; only the transition of a reduction is not
recorded, and a reduction that fails has recorded its first pass. Whether an analysis is
computed at all depends on what is remembered, and remembered is just what has succeeded
since a text was taken in last: a success is kept until then, an error is not kept. -/

namespace GrammarFixpoint

/-- The steps among the notes. -/
def Event.steps (events : List Event) : List Event := events.filter (·.level = .trace)

/-! ## Recorders -/

namespace Recorder

/-- Recording goes on from the next number, with a note for every step. -/
theorem foldl_record (r : Recorder) (growths : List Growth) :
    (growths.foldl record r).steps.toList = r.steps.toList ++
        (growths.zipIdx r.next).map (fun (growth, number) => growth.step r.phase r.label number) ∧
      (growths.foldl record r).events.toList = r.events.toList ++
        ((growths.zipIdx r.next).map fun (growth, number) =>
          growth.step r.phase r.label number).map Step.event := by
  induction growths generalizing r with
  | nil => simp
  | cons growth growths ih =>
    obtain ⟨steps, events⟩ := ih (r.record growth)
    rw [List.foldl_cons, steps, events]
    simp [record]

/-- The steps written down are those of the trace. -/
theorem steps_eq (phase : Phase) (label : String) (growths : List Growth) :
    (growths.foldl record (new phase label)).steps.toList = Trace.ofGrowths phase label growths :=
  (foldl_record (new phase label) growths).1

theorem noted_eq (phase : Phase) (label : String) (growths : List Growth) :
    noted phase label growths = (Trace.ofGrowths phase label growths).map Step.event :=
  (foldl_record (new phase label) growths).2

end Recorder

namespace Event

theorem steps_append (events others : List Event) :
    steps (events ++ others) = steps events ++ steps others :=
  List.filter_append ..

/-- Notes on steps are notes on nothing else. -/
theorem steps_notes (trace : Trace) : steps (trace.map Step.event) = trace.map Step.event := by
  refine List.filter_eq_self.mpr ?_
  rw [List.forall_mem_map]
  intro step _
  simp [Step.event]

theorem steps_debug (message : String) : steps [⟨.debug, message⟩] = [] := rfl

end Event

/-! ## Analyses -/

theorem Audits.phase_ne {phase : Phase} {label : String} {trace : Trace} {set : NameSet}
    (audits : Audits phase label trace set) (other : phase ≠ .useless) :
    ∀ step ∈ trace, step.phase ≠ .useless :=
  fun step mem => audits.phases step mem ▸ other

theorem filter_phase_eq_self {trace : Trace} (h : ∀ step ∈ trace, step.phase ≠ .useless) :
    trace.filter (·.phase ≠ .useless) = trace :=
  List.filter_eq_self.mpr fun step mem => decide_eq_true (h step mem)

namespace Grammar

variable {g : Grammar}

theorem steps_saturationEvents (g : Grammar) (c : Criterion) :
    Event.steps (g.saturationEvents c) = (g.saturate c).trace.map Step.event := by
  rw [saturationEvents, Event.steps_append, Event.steps_debug, Recorder.noted_eq,
    Event.steps_notes, List.append_nil]
  rfl

theorem steps_reachabilityEvents (g : Grammar) :
    Event.steps g.reachabilityEvents = g.reachable.trace.map Step.event := by
  rw [reachabilityEvents, Event.steps_append, Event.steps_debug, Recorder.noted_eq,
    Event.steps_notes, List.append_nil]
  rfl

theorem unitClosureEvents_eq (g : Grammar) (origin : String) :
    g.unitClosureEvents origin = (g.unitClosure origin).trace.map Step.event :=
  Recorder.noted_eq ..

theorem steps_unitEvents (g : Grammar) :
    Event.steps (g.variableNames.flatMap g.unitClosureEvents) =
      g.unitClosures.trace.map Step.event := by
  have notes : g.unitClosureEvents = fun origin => (g.unitClosure origin).trace.map Step.event :=
    funext g.unitClosureEvents_eq
  rw [notes, ← List.map_flatMap, Event.steps_notes, trace_unitClosures]

/-- A reduction that succeeds notes the steps of its two passes. -/
theorem steps_reductionEvents {productive reduced : Grammar}
    (start : g.start ∈ g.terminating.value)
    (cut : g.restrict g.terminating.value = .ok productive)
    (cut' : productive.restrict productive.reachable.value = .ok reduced) :
    Event.steps g.reductionEvents =
      (g.terminating.trace ++ productive.reachable.trace).map Step.event := by
  simp only [reductionEvents, usefulEvents, Std.ExtTreeSet.contains_iff_mem.mpr start, cut, cut',
    Event.steps_append, Event.steps_debug, steps_saturationEvents, steps_reachabilityEvents,
    Bool.not_true, Bool.false_eq_true, if_false, List.append_nil, List.map_append]
  rfl

/-- One that fails for want of strings notes the steps of its first pass. -/
theorem steps_reductionEvents_of_empty (h : g.start ∉ g.terminating.value) :
    Event.steps g.reductionEvents = g.terminating.trace.map Step.event := by
  rw [reductionEvents, NameSet.contains_eq_false_iff.mpr h, Bool.not_false, if_pos rfl,
    List.append_nil]
  exact steps_saturationEvents g .terminating

/-- The four analyses of a grammar as it is take no step between two passes. -/
theorem phase_ne_of_outcome {algorithm : Algorithm} {outcome : Outcome}
    (h : g.outcome algorithm = .ok outcome) (other : algorithm ≠ .useless) :
    ∀ step ∈ outcome.steps, step.phase ≠ .useless := by
  cases algorithm with
  | terminating =>
    cases h
    exact (g.audits_saturate .terminating).phase_ne (by decide)
  | nullable =>
    cases h
    exact (g.audits_saturate .nullable).phase_ne (by decide)
  | reachable =>
    cases h
    exact g.audits_reachable.phase_ne (by decide)
  | unit =>
    cases h
    intro step mem
    rw [Outcome.steps, trace_unitClosures] at mem
    obtain ⟨origin, -, mem⟩ := List.mem_flatMap.mp mem
    exact (g.audits_unitClosure origin).phase_ne (by decide) step mem
  | useless => exact absurd rfl other

/-- The returned steps without the transition are those that were noted. -/
theorem steps_outcomeEvents {algorithm : Algorithm} {outcome : Outcome}
    (h : g.outcome algorithm = .ok outcome) :
    Event.steps (g.outcomeEvents algorithm) =
      (outcome.steps.filter (·.phase ≠ .useless)).map Step.event := by
  by_cases reduction : algorithm = .useless
  · subst reduction
    obtain ⟨result, reduce, rfl⟩ := outcome_useless h
    obtain ⟨productive, start, cut, cut', trace⟩ := exists_stages reduce
    have first : g.terminating.trace.filter (·.phase ≠ .useless) = g.terminating.trace :=
      filter_phase_eq_self ((g.audits_saturate .terminating).phase_ne (by decide))
    have second : productive.reachable.trace.filter (·.phase ≠ .useless) =
        productive.reachable.trace :=
      filter_phase_eq_self (productive.audits_reachable.phase_ne (by decide))
    rw [outcomeEvents, steps_reductionEvents start cut cut', Outcome.steps, trace, List.filter_append,
      first, List.filter_cons_of_neg (by simp [transition]), second]
  · rw [filter_phase_eq_self (phase_ne_of_outcome h reduction)]
    cases algorithm with
    | terminating | nullable =>
      cases h
      exact steps_saturationEvents g _
    | reachable =>
      cases h
      exact steps_reachabilityEvents g
    | unit =>
      cases h
      exact steps_unitEvents g
    | useless => exact absurd rfl reduction

/-- A reduction has one transition, and the other analyses have none. -/
theorem length_transitions {algorithm : Algorithm} {outcome : Outcome} (hg : g.WellFormed)
    (h : g.outcome algorithm = .ok outcome) :
    (outcome.steps.filter (·.phase = .useless)).length = if algorithm = .useless then 1 else 0 := by
  split
  · next reduction =>
    subst reduction
    obtain ⟨result, reduce, rfl⟩ := outcome_useless h
    obtain ⟨productive, marker, audits⟩ := exists_auditsReduction hg reduce
    rw [Outcome.steps, audits.single, List.length_singleton]
  · next other =>
    rw [List.length_eq_zero_iff, List.filter_eq_nil_iff]
    intro step mem
    simpa using phase_ne_of_outcome h other step mem

end Grammar

/-! ## What a session remembers -/

namespace Session

/-- The analysis that an operation asks for by a known name. -/
def Operation.algorithm? : Operation → Option Algorithm
  | .run name | .runAlgorithm name => Algorithm.ofName? name
  | .load _ | .loadGrammar _ | .grammar => none

/-- Does the operation ask for an analysis, by whatever name? -/
def Operation.asks : Operation → Bool
  | .run _ | .runAlgorithm _ => true
  | .load _ | .loadGrammar _ | .grammar => false

/-- Does the operation take in a text that is not refused? -/
def Operation.takesIn : Operation → Bool
  | .load text | .loadGrammar text => (Grammar.ofText text).isOk
  | .run _ | .runAlgorithm _ | .grammar => false

/-- The outcome that an answer gives. -/
def Answer.outcome? : Answer → Option Outcome
  | .computed (.ok outcome) => some outcome
  | .runResponse (.success payload) => some payload.result
  | _ => none

/-- The answer is that the language of the start symbol is empty. -/
def Answer.SaysEmpty (start : String) : Answer → Prop
  | .computed result => result = .error (.emptyLanguage start)
  | .runResponse response => response = .error (SessionError.emptyLanguage start).message
  | _ => False

/-- The analysis was asked for and succeeded, and no text was taken in since. -/
def Succeeded (s : Session) (history : List Operation) (algorithm : Algorithm) : Prop :=
  ∃ earlier operation later, history = earlier ++ operation :: later ∧
    operation.algorithm? = some algorithm ∧
    ((s.after earlier).perform operation).1.outcome?.isSome = true ∧
    ∀ other ∈ later, other.takesIn = false

def remembered? (s : Session) (algorithm : Algorithm) : Option Outcome :=
  s.workspace?.bind (·.outcome? algorithm)

variable {s : Session} {operation : Operation} {algorithm : Algorithm}

/-- What an operation can do to a session: run an analysis, change nothing, or take in a
grammar that nothing is remembered of. -/
theorem perform_cases (s : Session) (operation : Operation) :
    (∃ algorithm, operation.algorithm? = some algorithm ∧ operation.takesIn = false ∧
      (s.perform operation).2 = (s.run algorithm).2 ∧
      (s.perform operation).1.outcome? = (s.run algorithm).1.toOption) ∨
    (operation.algorithm? = none ∧ operation.takesIn = false ∧ (s.perform operation).2 = s) ∨
    (operation.algorithm? = none ∧ operation.takesIn = true ∧
      ∃ g, (s.perform operation).2 = ⟨some ⟨g, []⟩⟩) := by
  cases operation with
  | load text | loadGrammar text =>
    cases read : Grammar.ofText text with
    | error e =>
      refine .inr (.inl ⟨rfl, by simp [Operation.takesIn, read, Except.isOk, Except.toBool], ?_⟩)
      simp [perform, loadGrammar, Session.load, read]
    | ok g =>
      refine .inr (.inr ⟨rfl, by simp [Operation.takesIn, read, Except.isOk, Except.toBool], g, ?_⟩)
      simp [perform, loadGrammar, Session.load, read]
  | run name =>
    cases known : Algorithm.ofName? name with
    | none => exact .inr (.inl ⟨known, rfl, by simp [perform, runNamed, known]⟩)
    | some algorithm =>
      refine .inl ⟨algorithm, known, rfl, by simp [perform, runNamed, known], ?_⟩
      simp only [perform, runNamed, known, Prod.map_fst]
      cases (s.run algorithm).1 <;> rfl
  | runAlgorithm name =>
    cases known : Algorithm.ofName? name with
    | none => exact .inr (.inl ⟨known, rfl, by simp [perform, runAlgorithm, runNamed, known]⟩)
    | some algorithm =>
      refine .inl ⟨algorithm, known, rfl, by simp [perform, runAlgorithm, runNamed, known], ?_⟩
      simp only [perform, runAlgorithm, runNamed, known, Prod.map_fst]
      cases (s.run algorithm).1 <;> rfl
  | grammar => exact .inr (.inl ⟨rfl, rfl, rfl⟩)

theorem perform_of_algorithm? (s : Session) (h : operation.algorithm? = some algorithm) :
    (s.perform operation).2 = (s.run algorithm).2 ∧
      (s.perform operation).1.outcome? = (s.run algorithm).1.toOption := by
  rcases s.perform_cases operation with
    ⟨asked, known, -, next, answer⟩ | ⟨unknown, -⟩ | ⟨unknown, -⟩
  · rw [h, Option.some.injEq] at known
    exact known ▸ ⟨next, answer⟩
  · rw [h] at unknown
    cases unknown
  · rw [h] at unknown
    cases unknown

/-- A run remembers its own outcome and forgets none. -/
theorem remembered_run (s : Session) (asked algorithm : Algorithm) :
    ((s.run asked).2.remembered? algorithm).isSome = true ↔
      (s.remembered? algorithm).isSome = true ∨
        asked = algorithm ∧ (s.run asked).1.toOption.isSome = true := by
  cases loaded : s.workspace? with
  | none => simp [run_none loaded, Except.toOption]
  | some w =>
    have own : s.remembered? algorithm = w.outcome? algorithm := by
      rw [remembered?, loaded, Option.bind_some]
    cases remembered : w.outcome? asked with
    | some outcome =>
      rw [run_remembered loaded remembered, or_iff_left_of_imp]
      rintro ⟨rfl, -⟩
      rw [own, remembered, Option.isSome_some]
    | none =>
      cases computed : w.grammar.outcome asked with
      | error e => simp [run_failed loaded remembered computed, Except.toOption]
      | ok outcome =>
        rw [run_computed loaded remembered computed, own]
        show (List.lookup algorithm ((asked, outcome) :: w.outcomes)).isSome = true ↔
          (List.lookup algorithm w.outcomes).isSome = true ∨ asked = algorithm ∧ _
        by_cases same : algorithm = asked
        · simp [same, Except.toOption]
        · rw [List.lookup_cons, beq_eq_false_iff_ne.mpr same, or_iff_left]
          exact fun h => same h.1.symm

/-- A success is remembered until a text is taken in. -/
theorem remembered_perform (s : Session) (operation : Operation) (algorithm : Algorithm) :
    ((s.perform operation).2.remembered? algorithm).isSome = true ↔
      (s.remembered? algorithm).isSome = true ∧ operation.takesIn = false ∨
        operation.algorithm? = some algorithm ∧
          (s.perform operation).1.outcome?.isSome = true := by
  rcases s.perform_cases operation with
    ⟨asked, known, kept, next, answer⟩ | ⟨unknown, kept, next⟩ | ⟨unknown, taken, g, next⟩
  · rw [next, remembered_run, known, kept, answer, Option.some.injEq, and_iff_left rfl]
  · simp [next, unknown, kept]
  · simp [next, unknown, taken, remembered?, Workspace.outcome?]

theorem succeeded_cons {operation : Operation} {history : List Operation} :
    s.Succeeded (operation :: history) algorithm ↔
      (operation.algorithm? = some algorithm ∧
        (s.perform operation).1.outcome?.isSome = true ∧
        ∀ other ∈ history, other.takesIn = false) ∨
      (s.perform operation).2.Succeeded history algorithm := by
  constructor
  · intro h
    obtain ⟨earlier, asking, later, eq, known, succeeds, kept⟩ := h
    cases earlier with
    | nil =>
      obtain ⟨rfl, rfl⟩ := List.cons.inj eq
      exact .inl ⟨known, succeeds, kept⟩
    | cons first earlier =>
      obtain ⟨rfl, rfl⟩ := List.cons.inj eq
      exact .inr ⟨earlier, asking, later, rfl, known, succeeds, kept⟩
  · intro h
    rcases h with ⟨known, succeeds, kept⟩ | ⟨earlier, asking, later, rfl, known, succeeds, kept⟩
    · exact ⟨[], operation, history, rfl, known, succeeds, kept⟩
    · exact ⟨operation :: earlier, asking, later, rfl, known, succeeds, kept⟩

/-- After a history is remembered what was before it, unless a text was taken in, and
what has succeeded in it. -/
theorem remembered_after (s : Session) (history : List Operation) (algorithm : Algorithm) :
    ((s.after history).remembered? algorithm).isSome = true ↔
      (s.remembered? algorithm).isSome = true ∧ (∀ other ∈ history, other.takesIn = false) ∨
        s.Succeeded history algorithm := by
  induction history generalizing s with
  | nil => simp [after, Succeeded]
  | cons operation history ih =>
    rw [after, List.foldl_cons, ← after, ih, remembered_perform, succeeded_cons,
      List.forall_mem_cons, or_and_right, and_assoc, and_assoc, or_assoc]

theorem remembered_iff_succeeded (history : List Operation) (algorithm : Algorithm) :
    ((empty.after history).remembered? algorithm).isSome = true ↔
      empty.Succeeded history algorithm := by
  rw [remembered_after, or_iff_right]
  simp [remembered?, empty]

/-! ## Notes on runs -/

theorem events_of_algorithm? (s : Session) (h : operation.algorithm? = some algorithm) :
    s.events operation = s.runEvents algorithm := by
  cases operation with
  | run name | runAlgorithm name =>
    rw [events, show Algorithm.ofName? name = some algorithm from h]
  | load | loadGrammar | grammar => cases h

theorem events_of_unknown (s : Session) (asks : operation.asks = true)
    (h : operation.algorithm? = none) : s.events operation = [] := by
  cases operation with
  | run name | runAlgorithm name => rw [events, show Algorithm.ofName? name = none from h]
  | load | loadGrammar | grammar => cases asks

section Loaded

variable {w : Workspace} (loaded : s.workspace? = some w)
include loaded

theorem runEvents_remembered (h : (s.remembered? algorithm).isSome = true) :
    s.runEvents algorithm = [⟨.trace, "reuse the outcome of " ++ algorithm.name⟩] := by
  rw [remembered?, loaded, Option.bind_some] at h
  obtain ⟨outcome, remembered⟩ := Option.isSome_iff_exists.mp h
  simp only [runEvents, loaded, remembered]

theorem runEvents_absent (h : ¬ (s.remembered? algorithm).isSome = true) :
    s.runEvents algorithm =
      ⟨.debug, "run " ++ algorithm.name⟩ :: w.grammar.outcomeEvents algorithm := by
  rw [remembered?, loaded, Option.bind_some, Option.not_isSome_iff_eq_none] at h
  simp only [runEvents, loaded, h]

/-- What is noted tells whether an outcome was remembered. -/
theorem runEvents_eq_reuse_iff :
    s.runEvents algorithm = [⟨.trace, "reuse the outcome of " ++ algorithm.name⟩] ↔
      (s.remembered? algorithm).isSome = true := by
  refine ⟨fun reused => ?_, runEvents_remembered loaded⟩
  apply Decidable.byContradiction
  intro absent
  rw [runEvents_absent loaded absent] at reused
  cases reused

/-- An analysis that fails is not remembered, before or after. -/
theorem run_of_failed (failed : (s.run algorithm).1.toOption = none) :
    (s.remembered? algorithm).isSome = false ∧ (s.run algorithm).2 = s := by
  rw [remembered?, loaded, Option.bind_some]
  cases remembered : w.outcome? algorithm with
  | some outcome =>
    rw [run_remembered loaded remembered] at failed
    cases failed
  | none =>
    cases computed : w.grammar.outcome algorithm with
    | error e => exact ⟨rfl, by rw [run_failed loaded remembered computed]⟩
    | ok outcome =>
      rw [run_computed loaded remembered computed] at failed
      cases failed

end Loaded

/-- Asked again and again, an analysis that fails leaves the session as it is. -/
theorem after_replicate (h : (s.perform operation).2 = s) (n : Nat) :
    s.after (List.replicate n operation) = s := by
  induction n with
  | zero => rfl
  | succ n ih => rw [List.replicate_succ, after, List.foldl_cons, h, ← after, ih]

theorem after_append (s : Session) (before later : List Operation) :
    s.after (before ++ later) = (s.after before).after later :=
  List.foldl_append

theorem Answer.outcome?_of_saysEmpty {answer : Answer} {start : String}
    (h : answer.SaysEmpty start) : answer.outcome? = none := by
  cases answer with
  | computed result => rw [show result = _ from h]; rfl
  | runResponse response => rw [show response = _ from h]; rfl
  | loaded | loadResponse | grammar => rfl

/-- What is noted of a step: its label, the set it shows, and why it was reached. -/
def noteOf (step : Step) : Event :=
  ⟨.trace, step.iteration ++ ": " ++ step.admitted ++ " (" ++ step.explanation ++ ")"⟩

/-- What a session notes that has gone through a history and is asked for an analysis of
the grammar it holds. -/
structure LogTells (history : List Operation) (operation : Operation) (g : Grammar)
    (algorithm : Algorithm) : Prop where
  reuse_iff : (empty.after history).events operation =
      [⟨.trace, "reuse the outcome of " ++ algorithm.name⟩] ↔ empty.Succeeded history algorithm
  computed : ¬ empty.Succeeded history algorithm → ∃ later,
    (empty.after history).events operation = ⟨.debug, "run " ++ algorithm.name⟩ :: later ∧
    ∀ outcome, ((empty.after history).perform operation).1.outcome? = some outcome →
      Event.steps later = (outcome.steps.filter (·.phase ≠ .useless)).map noteOf
  transition : ∀ outcome, ((empty.after history).perform operation).1.outcome? = some outcome →
    (outcome.steps.filter (·.phase = .useless)).length = if algorithm = .useless then 1 else 0
  failed : ∀ start, ((empty.after history).perform operation).1.SaysEmpty start →
    algorithm = .useless ∧ ∀ n, ∃ later,
      (empty.after (history ++ List.replicate n operation)).events operation =
        ⟨.debug, "run " ++ algorithm.name⟩ :: later ∧
      Event.steps later = g.terminating.trace.map noteOf

section Told

variable {history : List Operation} {g : Grammar} (latest : PlainSession.latest history = some g)
  (known : operation.algorithm? = some algorithm)
include latest

theorem exists_workspace : ∃ w, (empty.after history).workspace? = some w ∧ w.grammar = g := by
  obtain ⟨-, grammar⟩ := faithful_empty.after history
  exact Option.map_eq_some_iff.mp (grammar.trans latest)

/-- A run succeeds where the grammar has an outcome, and gives that one. -/
theorem toOption_run (algorithm : Algorithm) :
    ((empty.after history).run algorithm).1.toOption = (g.outcome algorithm).toOption := by
  rw [run_after, latest, PlainSession.run]
  cases g.outcome algorithm <;> rfl

/-- What is answered and what is noted come from the same outcome of the grammar. -/
theorem logTells (known : operation.algorithm? = some algorithm) :
    LogTells history operation g algorithm := by
  obtain ⟨w, loaded, rfl⟩ := exists_workspace latest
  obtain ⟨next, answered⟩ := (empty.after history).perform_of_algorithm? known
  have hg := (PlainSession.built_of_latest latest).wellFormed
  have outcome_of {outcome : Outcome}
      (answer : ((empty.after history).perform operation).1.outcome? = some outcome) :
      w.grammar.outcome algorithm = .ok outcome := by
    rw [answered, toOption_run latest] at answer
    cases computed : w.grammar.outcome algorithm with
    | error e => rw [computed] at answer; cases answer
    | ok outcome' => rw [computed] at answer; cases answer; rfl
  refine ⟨?_, ?_, ?_, ?_⟩
  · rw [events_of_algorithm? _ known, runEvents_eq_reuse_iff loaded, remembered_iff_succeeded]
  · intro fresh
    rw [← remembered_iff_succeeded] at fresh
    refine ⟨_, (events_of_algorithm? _ known).trans (runEvents_absent loaded fresh), ?_⟩
    exact fun outcome answer => Grammar.steps_outcomeEvents (outcome_of answer)
  · exact fun outcome answer => Grammar.length_transitions hg (outcome_of answer)
  · intro start says_empty
    have failed := answered.symm.trans (Answer.outcome?_of_saysEmpty says_empty)
    obtain ⟨absent, same⟩ := run_of_failed loaded failed
    rw [toOption_run latest] at failed
    cases computed : w.grammar.outcome algorithm with
    | ok outcome => rw [computed] at failed; cases failed
    | error e =>
      obtain ⟨rfl, -, unproductive⟩ := Grammar.outcome_eq_error hg computed
      refine ⟨rfl, fun n => ?_⟩
      rw [after_append, after_replicate (next.trans same)]
      refine ⟨_, (events_of_algorithm? _ known).trans (runEvents_absent loaded (by simp [absent])), ?_⟩
      exact Grammar.steps_reductionEvents_of_empty unproductive

end Told

theorem events_of_nothing_loaded {history : List Operation}
    (h : PlainSession.latest history = none) (known : operation.algorithm? = some algorithm) :
    (empty.after history).events operation = [] := by
  obtain ⟨-, grammar⟩ := faithful_empty.after history
  have unloaded : (empty.after history).workspace? = none :=
    Option.map_eq_none_iff.mp (grammar.trans h)
  rw [events_of_algorithm? _ known, runEvents, unloaded]

/-- The log agrees with the answers, whatever was asked before, and a recorder notes each step
that it writes down. -/
theorem log_tells_answers (history : List Operation) (operation : Operation) :
    (∀ g algorithm, PlainSession.latest history = some g →
      operation.algorithm? = some algorithm → LogTells history operation g algorithm) ∧
    (operation.asks = true →
      PlainSession.latest history = none ∨ operation.algorithm? = none →
      (empty.after history).events operation = []) ∧
    ∀ phase label growths,
      let recorder := growths.foldl Recorder.record (.new phase label)
      recorder.steps.toList = Trace.ofGrowths phase label growths ∧
      recorder.events.toList = recorder.steps.toList.map noteOf := by
  refine ⟨fun g algorithm latest known => logTells latest known, ?_, ?_⟩
  · intro asks nothing
    cases known : operation.algorithm? with
    | none => exact events_of_unknown _ asks known
    | some algorithm =>
      rw [known] at nothing
      exact events_of_nothing_loaded (nothing.resolve_right nofun) known
  · intro phase label growths
    have steps := Recorder.steps_eq phase label growths
    exact ⟨steps, steps ▸ Recorder.noted_eq phase label growths⟩

/-- An analysis succeeds, and a text is refused after that. -/
def unitHistory : List Operation := [.load "S -> a", .runAlgorithm "unit", .loadGrammar "S"]

theorem log_tells_answers_of_histories :
    (∃ g later, PlainSession.latest loopHistory = some g ∧
      (empty.after (loopHistory ++ [.runAlgorithm "useless"])).events (.runAlgorithm "useless") =
        ⟨.debug, "run useless"⟩ :: later ∧
      Event.steps later = g.terminating.trace.map noteOf) ∧
    (empty.after unitHistory).events (.run "unit") =
      [⟨.trace, "reuse the outcome of unit"⟩] ∧
    (empty.after unitHistory).events (.run "Unit") = [] := by
  refine ⟨?_, ?_, ?_⟩
  · obtain ⟨g, loaded, -⟩ := latest_loopHistory
    have tells := (log_tells_answers loopHistory (.runAlgorithm "useless")).1 g .useless loaded
      (by decide)
    have says_empty : ((empty.after loopHistory).runAlgorithm "useless").1 =
        .error (SessionError.emptyLanguage "S").message := by decide
    obtain ⟨-, again⟩ := tells.failed "S" says_empty
    obtain ⟨later, events, steps⟩ := again 1
    exact ⟨g, later, loaded, events, steps⟩
  · obtain ⟨g, loaded⟩ := Option.isSome_iff_exists.mp
      (show (PlainSession.latest unitHistory).isSome = true by decide)
    have tells := (log_tells_answers unitHistory (.run "unit")).1 g .unit loaded (by decide)
    refine tells.reuse_iff.mpr ⟨[.load "S -> a"], .runAlgorithm "unit", [.loadGrammar "S"], rfl, ?_⟩
    decide
  · exact (log_tells_answers unitHistory (.run "Unit")).2.1 rfl (.inr (by decide))

end Session

end GrammarFixpoint
