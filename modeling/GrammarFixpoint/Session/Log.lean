import GrammarFixpoint.Session.Basic

/-! What a session notes down while it answers. A recorder notes a step as it writes
it down, the results of the analyses and the fate of a text are noted in a sentence;
the transition between the two passes of a reduction goes into the trace by itself,
without a recorder and without a note. -/

namespace GrammarFixpoint

inductive Level where
  | debug
  | trace
  deriving DecidableEq

structure Event where
  level : Level
  message : String
  deriving DecidableEq

def Step.event (step : Step) : Event :=
  ⟨.trace, step.iteration ++ ": " ++ step.admitted ++ " (" ++ step.explanation ++ ")"⟩

/-- Numbers growths as they come, and notes every step that it writes down. -/
structure Recorder where
  phase : Phase
  label : String
  /-- The number of the next step. -/
  next : Nat
  steps : Array Step
  events : Array Event

namespace Recorder

def new (phase : Phase) (label : String) : Recorder := ⟨phase, label, 1, #[], #[]⟩

def record (r : Recorder) (growth : Growth) : Recorder :=
  let step := growth.step r.phase r.label r.next
  { r with
    next := r.next + 1
    steps := r.steps.push step
    events := r.events.push step.event }

/-- What is noted while growths are recorded one after the other. -/
def noted (phase : Phase) (label : String) (growths : List Growth) : List Event :=
  (growths.foldl record (new phase label)).events.toList

end Recorder

namespace Grammar

def saturationEvents (g : Grammar) (c : Criterion) : List Event :=
  let passes := (Saturation.shown (Saturation.run c g)).zipIdx 1
  Recorder.noted c.phase c.phase.label
      (passes.map fun (pass, number) => Saturation.growth c pass number) ++
    [⟨.debug, c.phase.name ++ " variables: " ++ setNotation (g.saturate c).value.toList⟩]

def reachabilityEvents (g : Grammar) : List Event :=
  Recorder.noted .reachable Phase.reachable.label
      (Reachability.begin g :: (Reachability.run g).map (Reachability.growth g)) ++
    [⟨.debug, "reachable variables: " ++ setNotation g.reachable.value.toList⟩]

/-- Every closure is recorded by itself. -/
def unitClosureEvents (g : Grammar) (origin : String) : List Event :=
  Recorder.noted .unit (UnitClosure.label origin)
    (UnitClosure.begin origin :: (UnitClosure.run g origin).map UnitClosure.growth)

/-- The second pass of a reduction, on what the first one leaves. -/
def usefulEvents (g productive : Grammar) : List Event :=
  let useful := productive.reachable.value
  productive.reachabilityEvents ++
    match productive.restrict useful with
    | .error _ => []
    | .ok _ =>
      [⟨.debug, s!"{useful.size} of {g.variableNames.length} variables are useful"⟩]

def reductionEvents (g : Grammar) : List Event :=
  let terminating := g.terminating.value
  g.saturationEvents .terminating ++
    if !terminating.contains g.start then []
    else match g.restrict terminating with
      | .error _ => []
      | .ok productive => g.usefulEvents productive

/-- What computing an outcome notes down. -/
def outcomeEvents (g : Grammar) : Algorithm → List Event
  | .terminating => g.saturationEvents .terminating
  | .nullable => g.saturationEvents .nullable
  | .reachable => g.reachabilityEvents
  | .unit => g.variableNames.flatMap g.unitClosureEvents
  | .useless => g.reductionEvents

end Grammar

namespace Session

def loadEvents (text : String) : List Event :=
  match Grammar.ofText text with
  | .error e => [⟨.debug, "rejected grammar: " ++ e.message⟩]
  | .ok g =>
    [⟨.debug,
      s!"loaded grammar: {g.variableNames.length} variables, {g.terminalNames.length} terminals"⟩]

def runEvents (s : Session) (algorithm : Algorithm) : List Event :=
  match s.workspace? with
  | none => []
  | some w =>
    match w.outcome? algorithm with
    | some _ => [⟨.trace, "reuse the outcome of " ++ algorithm.name⟩]
    | none => ⟨.debug, "run " ++ algorithm.name⟩ :: w.grammar.outcomeEvents algorithm

/-- What an operation notes down, in order. -/
def events (s : Session) : Operation → List Event
  | .load text | .loadGrammar text => loadEvents text
  | .run name | .runAlgorithm name =>
    match Algorithm.ofName? name with
    | none => []
    | some algorithm => s.runEvents algorithm
  | .grammar => []

end Session

end GrammarFixpoint
