import GrammarFixpoint.NameSet

/-! Traces. An analysis grows a set of variables, and each growth is written
down as a step: a label, the set reached, why it was reached and what is new.
Steps hold text only, so a trace can be shown or stored without its grammar. -/

namespace GrammarFixpoint

/-- The analysis that a step belongs to. -/
inductive Phase where
  | terminating
  | nullable
  | reachable
  | unit
  | useless
  deriving DecidableEq

namespace Phase

def all : List Phase := [terminating, nullable, reachable, unit, useless]

def name : Phase → String
  | terminating => "terminating"
  | nullable => "nullable"
  | reachable => "reachable"
  | unit => "unit"
  | useless => "useless"

/-- What the labels of the phase begin with. -/
def label : Phase → String
  | terminating => "TERM"
  | nullable => "NULL"
  | reachable => "REACH"
  | unit => "UNIT"
  | useless => "USELESS"

end Phase

structure Step where
  phase : Phase
  iteration : String
  /-- The variables admitted up to this step, in set notation. -/
  admitted : String
  explanation : String
  newVariables : List String
  deriving DecidableEq

def Step.text (step : Step) : String :=
  let added :=
    match step.newVariables with
    | [] => ""
    | names => " [+" ++ ", ".intercalate names ++ "]"
  step.iteration ++ ": " ++ step.admitted ++ "  (" ++ step.explanation ++ ")" ++ added

abbrev Trace := List Step

/-- A value with the trace of how it came about. -/
structure Traced (α : Type) where
  value : α
  trace : Trace

/-- One growth of a set of variables, before it is numbered and written down. -/
structure Growth where
  /-- The set after the growth. -/
  reached : NameSet
  explanation : String
  added : List String

/-- The label of the step with a number counted from one. -/
def numberedLabel (label : String) (number : Nat) : String := label ++ "_" ++ toString number

def Growth.step (phase : Phase) (label : String) (growth : Growth) (number : Nat) : Step where
  phase := phase
  iteration := numberedLabel label number
  admitted := setNotation growth.reached.toList
  explanation := growth.explanation
  newVariables := growth.added

/-- Growths in order as the steps one, two, three and so on. -/
def Trace.ofGrowths (phase : Phase) (label : String) (growths : List Growth) : Trace :=
  (growths.zipIdx 1).map fun (growth, number) => growth.step phase label number

end GrammarFixpoint
