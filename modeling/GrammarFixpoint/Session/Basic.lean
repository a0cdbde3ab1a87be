import GrammarFixpoint.Algorithm
import GrammarFixpoint.Grammar.Reader

/-! Sessions. A session holds one grammar and the outcomes already computed for
it. Outcomes are kept beside the grammar they belong to, so replacing the
grammar is what forgets them, and a text that is refused replaces nothing. -/

namespace GrammarFixpoint

inductive SessionError where
  | malformed (error : GrammarError)
  | noGrammarLoaded
  | emptyLanguage (start : String)
  | unknownAlgorithm (name : String)
  deriving DecidableEq

namespace SessionError

def message : SessionError → String
  | malformed error => "malformed grammar: " ++ error.message
  | noGrammarLoaded => "no grammar loaded; load a grammar first"
  | emptyLanguage start => emptyLanguageMessage start
  | unknownAlgorithm name => s!"unknown algorithm: `{name}'"

def ofReduction : ReductionError → SessionError
  | .emptyLanguage start => emptyLanguage start
  | .grammar error => malformed error

end SessionError

/-- An answer that is tagged as a success or an error. -/
inductive Response (α : Type) where
  | success (payload : α)
  | error (message : String)
  deriving DecidableEq

def Response.ofExcept {α : Type} : Except SessionError α → Response α
  | .ok payload => .success payload
  | .error e => .error e.message

/-- What a response says of a grammar that was taken in. -/
structure Loaded where
  message : String
  data : Snapshot
  deriving DecidableEq

/-- What a response says of an analysis that was run. -/
structure Computed where
  result : Outcome
  deriving DecidableEq

/-- A grammar with the outcomes computed for it, the latest first. -/
structure Workspace where
  grammar : Grammar
  outcomes : List (Algorithm × Outcome)

def Workspace.outcome? (w : Workspace) (algorithm : Algorithm) : Option Outcome :=
  w.outcomes.lookup algorithm

/-- At first there is no grammar. -/
structure Session where
  workspace? : Option Workspace

namespace Session

def empty : Session := ⟨none⟩

def grammar? (s : Session) : Option Grammar := s.workspace?.map Workspace.grammar

def load (s : Session) (text : String) : Except SessionError Snapshot × Session :=
  match Grammar.ofText text with
  | .error e => (.error (.malformed e), s)
  | .ok g => (.ok g.snapshot, ⟨some ⟨g, []⟩⟩)

/-- A failure is not kept: asked again, it is computed again. -/
def run (s : Session) (algorithm : Algorithm) : Except SessionError Outcome × Session :=
  match s.workspace? with
  | none => (.error .noGrammarLoaded, s)
  | some w =>
    match w.outcome? algorithm with
    | some outcome => (.ok outcome, s)
    | none =>
      match w.grammar.outcome algorithm with
      | .error e => (.error (.ofReduction e), s)
      | .ok outcome =>
        (.ok outcome, ⟨some { w with outcomes := (algorithm, outcome) :: w.outcomes }⟩)

/-- The name is looked at before the grammar is. -/
def runNamed (s : Session) (name : String) : Except SessionError Outcome × Session :=
  match Algorithm.ofName? name with
  | none => (.error (.unknownAlgorithm name), s)
  | some algorithm => s.run algorithm

def loadGrammar (s : Session) (text : String) : Response Loaded × Session :=
  let (answer, s) := s.load text
  (.ofExcept (answer.map fun data => ⟨"grammar loaded successfully", data⟩), s)

def runAlgorithm (s : Session) (name : String) : Response Computed × Session :=
  let (answer, s) := s.runNamed name
  (.ofExcept (answer.map Computed.mk), s)

/-- What can be asked of a session. -/
inductive Operation where
  | load (text : String)
  | loadGrammar (text : String)
  | run (name : String)
  | runAlgorithm (name : String)
  | grammar
  deriving DecidableEq

inductive Answer where
  | loaded (result : Except SessionError Snapshot)
  | loadResponse (response : Response Loaded)
  | computed (result : Except SessionError Outcome)
  | runResponse (response : Response Computed)
  | grammar (current : Option Grammar)

def perform (s : Session) : Operation → Answer × Session
  | .load text => (s.load text).map .loaded id
  | .loadGrammar text => (s.loadGrammar text).map .loadResponse id
  | .run name => (s.runNamed name).map .computed id
  | .runAlgorithm name => (s.runAlgorithm name).map .runResponse id
  | .grammar => (.grammar s.grammar?, s)

end Session

end GrammarFixpoint
