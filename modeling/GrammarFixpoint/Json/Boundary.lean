import GrammarFixpoint.Json.Tag
import GrammarFixpoint.Session.Basic

/-! The values that leave the library, as JSON and back. A record is an object
with its fields in the order of their declaration; a value of one of several
kinds has its tag first. Reading asks for every field but the new variables of a
step, in any order, passes over fields it does not know, and checks nothing but
the types. What can stand both on its own and inside a tagged value is read with
its enclosure, which decides how names and tags may be spelled. -/

namespace GrammarFixpoint

def Phase.toJson (phase : Phase) : Json := .string phase.name

def Phase.ofJson? (enclosure : Json.Enclosure) (json : Json) : Option Phase :=
  (json.name? enclosure).bind fun name => Phase.all.find? (·.name == name)

def Algorithm.toJson (algorithm : Algorithm) : Json := .string algorithm.name

/-- No tagged value holds an algorithm. -/
def Algorithm.ofJson? (json : Json) : Option Algorithm :=
  (json.name? .untagged).bind Algorithm.ofName?

namespace Step

def toJson (step : Step) : Json :=
  let added := match step.newVariables with
    | [] => []
    | names => [("newVariables", Json.strings names)]
  .object
    ([("phase", step.phase.toJson),
      ("iteration", .string step.iteration),
      ("variables", .string step.admitted),
      ("explanation", .string step.explanation)] ++ added)

def ofJson? (enclosure : Json.Enclosure) (json : Json) : Option Step := do
  let phase ← Phase.ofJson? enclosure (← json.field? "phase")
  let iteration ← json.stringField? "iteration"
  let admitted ← json.stringField? "variables"
  let explanation ← json.stringField? "explanation"
  let newVariables ← match json.field? "newVariables" with
    | none => some []
    | some names => names.strings?
  return { phase, iteration, admitted, explanation, newVariables }

end Step

namespace Trace

def toJson (trace : Trace) : Json := .list (trace.map Step.toJson)

def ofJson? (enclosure : Json.Enclosure) (json : Json) : Option Trace :=
  json.list?.bind (·.mapM (Step.ofJson? enclosure))

end Trace

/-- An object from names to lists of names, in order. -/
def Json.namesByName (entries : List (String × List String)) : Json :=
  .object (entries.map fun (name, names) => (name, .strings names))

def Json.namesByName? (json : Json) : Option (List (String × List String)) :=
  json.object?.bind (·.mapM fun (name, names) => names.strings?.map (name, ·))

namespace Snapshot

def toJson (snapshot : Snapshot) : Json :=
  .object
    [("start", .string snapshot.start),
     ("variables", .strings snapshot.variableNames),
     ("terminals", .strings snapshot.terminalNames),
     ("productions", .namesByName snapshot.productions)]

def ofJson? (json : Json) : Option Snapshot := do
  let start ← json.stringField? "start"
  let variableNames ← (← json.field? "variables").strings?
  let terminalNames ← (← json.field? "terminals").strings?
  let productions ← (← json.field? "productions").namesByName?
  return { start, variableNames, terminalNames, productions }

end Snapshot

namespace Outcome

def toJson : Outcome → Json
  | .set title values steps =>
    .object
      [("kind", .string "set"), ("title", .string title), ("values", .strings values),
       ("steps", Trace.toJson steps)]
  | .mapping title values steps =>
    .object
      [("kind", .string "mapping"), ("title", .string title), ("values", .namesByName values),
       ("steps", Trace.toJson steps)]
  | .grammar title value steps =>
    .object
      [("kind", .string "grammar"), ("title", .string title), ("value", value.toJson),
       ("steps", Trace.toJson steps)]

def tags : List String := ["set", "mapping", "grammar"]

/-- The steps of an outcome stand inside a tagged value, the outcome itself. -/
def ofJson? (enclosure : Json.Enclosure) (json : Json) : Option Outcome := do
  let title ← json.stringField? "title"
  let steps ← Trace.ofJson? .tagged (← json.field? "steps")
  match ← json.tag? enclosure tags "kind" with
  | "set" => return .set title (← (← json.field? "values").strings?) steps
  | "mapping" => return .mapping title (← (← json.field? "values").namesByName?) steps
  | "grammar" => return .grammar title (← Snapshot.ofJson? (← json.field? "value")) steps
  | _ => none

end Outcome

/-- The fields of a success stand beside the tag. -/
def taggedSuccess (fields : List (String × Json)) : Json :=
  .object (("status", .string "success") :: fields)

def taggedError (message : String) : Json :=
  .object [("status", .string "error"), ("message", .string message)]

/-- The tag decides which fields are asked for. No tagged value holds a response. -/
def ofTagged? {α : Type} (payload? : Json → Option α) (json : Json) : Option (Response α) :=
  match json.tag? .untagged ["success", "error"] "status" with
  | some "success" => (payload? json).map .success
  | some "error" => (json.stringField? "message").map .error
  | _ => none

def Loaded.ofJson? (json : Json) : Option Loaded := do
  let message ← json.stringField? "message"
  let data ← Snapshot.ofJson? (← json.field? "data")
  return { message, data }

def Computed.ofJson? (json : Json) : Option Computed := do
  return { result := ← Outcome.ofJson? .tagged (← json.field? "result") }

namespace Response

def loadedToJson : Response Loaded → Json
  | .success loaded =>
    taggedSuccess [("message", .string loaded.message), ("data", loaded.data.toJson)]
  | .error message => taggedError message

def loadedOfJson? (json : Json) : Option (Response Loaded) := ofTagged? Loaded.ofJson? json

def computedToJson : Response Computed → Json
  | .success computed => taggedSuccess [("result", computed.result.toJson)]
  | .error message => taggedError message

def computedOfJson? (json : Json) : Option (Response Computed) := ofTagged? Computed.ofJson? json

end Response

end GrammarFixpoint
