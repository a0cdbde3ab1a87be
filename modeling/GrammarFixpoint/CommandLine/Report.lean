import GrammarFixpoint.CommandLine.Source
import GrammarFixpoint.Json.Boundary
import GrammarFixpoint.Json.Printer

/-! What the command line prints. Both formats run the listed analyses in order on
one session and go on after a failure, which only the exit code and the last
word on the error stream sum up. The text is for a reader and asks the session
directly; JSON is what a caller across the boundary would be answered, by name. -/

namespace GrammarFixpoint.CommandLine

structure Report where
  code : Nat
  stdout : String
  stderr : String
  deriving DecidableEq

/-- The exit code of arguments that break the rules. -/
def usageErrorCode : Nat := 2

def versionText : String := "cfgtrace-cli 0.0.0-dev\n"

def errorText (message : String) (cause? : Option String) : String :=
  match cause? with
  | none => "Error: " ++ message ++ "\n"
  | some cause => "Error: " ++ message ++ "\n\nCaused by:\n    " ++ cause ++ "\n"

/-- The end of a report that was printed in full. -/
def conclude (stdout : String) (failures : Nat) : Report :=
  match failures with
  | 0 => ⟨0, stdout, ""⟩
  | 1 => ⟨1, stdout, errorText "1 analysis failed" none⟩
  | n => ⟨1, stdout, errorText (toString n ++ " analyses failed") none⟩

def line (text : String) : String := text ++ "\n"

namespace TextReport

/-- The answers to analyses asked one after the other. -/
def answers (session : Session) : List Algorithm → List (Algorithm × Except SessionError Outcome)
  | [] => []
  | algorithm :: rest =>
    let (answer, session) := session.run algorithm
    (algorithm, answer) :: answers session rest

def failures (answers : List (Algorithm × Except SessionError Outcome)) : Nat :=
  answers.countP fun (_, answer) => !answer.isOk

def productionLine (entry : String × List String) : String :=
  line (entry.1 ++ " -> " ++ " | ".intercalate entry.2)

def grammarBlock (snapshot : Snapshot) : String :=
  line "## grammar" ++
    String.join (snapshot.productions.map productionLine) ++
    line ("start: " ++ snapshot.start) ++
    line ("variables: " ++ setNotation snapshot.variableNames) ++
    line ("terminals: " ++ setNotation snapshot.terminalNames)

/-- The number of a step takes at least three columns. -/
def stepLine (step : Step) (number : Nat) : String :=
  let digits := toString number
  let padding := String.ofList (List.replicate (3 - digits.length) ' ')
  line (padding ++ digits ++ ". [" ++ step.phase.name ++ "] " ++ step.text)

def stepsBlock (steps : Trace) : String :=
  line "### steps" ++
    String.join ((steps.zipIdx 1).map fun (step, number) => stepLine step number)

def resultLines : Outcome → String
  | .set _ values _ => line (setNotation values)
  | .mapping _ values _ =>
    String.join (values.map fun (name, names) => line (name ++ ": " ++ setNotation names))
  | .grammar _ value _ => String.join (value.productions.map productionLine)

/-- A blank line, a title, and either the result or why there is none. -/
def answerBlock (showSteps : Bool) (algorithm : Algorithm) :
    Except SessionError Outcome → String
  | .ok outcome =>
    line "" ++ line ("## " ++ outcome.title) ++ resultLines outcome ++
      if showSteps then stepsBlock outcome.steps else ""
  | .error e => line "" ++ line ("## " ++ algorithm.title) ++ line ("[error] " ++ e.message)

/-- A grammar that is refused prints nothing. -/
def report (invocation : Invocation) (text : String) : Report :=
  match Session.empty.load text with
  | (.error e, _) =>
    let cause? := match e with
      | .malformed cause => some cause.message
      | _ => none
    ⟨1, "", errorText e.message cause?⟩
  | (.ok snapshot, session) =>
    let answers := answers session invocation.requested
    conclude
      (grammarBlock snapshot ++
        String.join (answers.map fun (algorithm, answer) =>
          answerBlock invocation.showSteps algorithm answer))
      (failures answers)

end TextReport

namespace JsonReport

/-- The responses to analyses asked for by name, one after the other. -/
def responses (session : Session) : List Algorithm → List (Response Computed)
  | [] => []
  | algorithm :: rest =>
    let (response, session) := session.runAlgorithm algorithm.name
    response :: responses session rest

def failures (responses : List (Response Computed)) : Nat :=
  responses.countP fun
    | .success _ => false
    | .error _ => true

/-- A grammar that is refused is answered too, in the first line. -/
def report (invocation : Invocation) (text : String) : Report :=
  let (loaded, session) := Session.empty.loadGrammar text
  let first := line loaded.loadedToJson.compact
  match loaded with
  | .error message => ⟨1, first, errorText message none⟩
  | .success _ =>
    let responses := responses session invocation.requested
    let lines := responses.map fun response => line response.computedToJson.compact
    conclude (first ++ String.join lines) (failures responses)

end JsonReport

/-- Run the analyses on what was read from the source. -/
def Invocation.report (invocation : Invocation) : Except ReadError String → Report
  | .error e =>
    ⟨1, "", errorText ("failed to read " ++ invocation.source.name) (some e.message)⟩
  | .ok text =>
    match invocation.format with
    | .text => TextReport.report invocation text
    | .json => JsonReport.report invocation text

/-- The whole program in given surroundings. -/
def run (arguments : List String) (surroundings : Surroundings) : Report :=
  match Command.ofArguments? arguments with
  | none => ⟨usageErrorCode, "", ""⟩
  | some (.help form) => ⟨0, surroundings.helpText form, ""⟩
  | some .version => ⟨0, versionText, ""⟩
  | some (.analyse invocation) => invocation.report (surroundings.read invocation.source)

end GrammarFixpoint.CommandLine
