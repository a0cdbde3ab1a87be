import GrammarFixpoint.Algorithm

/-! The arguments of the command line. They are taken from left to right and the
first one that is wrong decides, as does a request for help or for the version. An
option that takes a value finds it in the same argument or in the next one; which
analyses are asked for may be said many times, the rest once. -/

namespace GrammarFixpoint.CommandLine

inductive Format where
  | text
  | json
  deriving DecidableEq

def Format.ofName? : String → Option Format
  | "text" => some text
  | "json" => some json
  | _ => none

/-- Where a grammar is read from. -/
inductive Source where
  | standardInput
  | file (path : String)
  deriving DecidableEq

/-- A file has a name that is not empty, and a lone dash is no file. -/
def Source.ofOperand? : String → Option Source
  | "" => none
  | "-" => some standardInput
  | path => some (file path)

def Source.name : Source → String
  | standardInput => "-"
  | file path => path

structure Invocation where
  /-- As listed; none listed asks for all. -/
  algorithms : List Algorithm
  format : Format
  showSteps : Bool
  source : Source
  deriving DecidableEq

def Invocation.requested (invocation : Invocation) : List Algorithm :=
  match invocation.algorithms with
  | [] => Algorithm.all
  | algorithms => algorithms

/-- Help is asked for by a letter or by a word. -/
inductive HelpForm where
  | short
  | long
  deriving DecidableEq

inductive Command where
  | analyse (invocation : Invocation)
  | help (form : HelpForm)
  | version
  deriving DecidableEq

/-- One argument by its form. A value may be attached to its option. -/
inductive Argument where
  | algorithm (value? : Option String)
  | format (value? : Option String)
  | noSteps
  | help (form : HelpForm)
  | version
  | endOfOptions
  | operand (value : String)
  | unknown
  deriving DecidableEq

namespace Argument

/-- A name behind two dashes, and the value behind an equals sign. -/
def ofLong (name : List Char) (value? : Option String) : Argument :=
  match String.ofList name, value? with
  | "algorithm", value? => algorithm value?
  | "format", value? => format value?
  | "no-steps", none => noSteps
  | "help", none => help .long
  | "version", none => version
  | _, _ => unknown

def classify (argument : String) : Argument :=
  match argument.toList with
  | ['-', '-'] => endOfOptions
  | '-' :: '-' :: long =>
    match long.span (· != '=') with
    | (name, []) => ofLong name none
    | (name, _ :: value) => ofLong name (some (String.ofList value))
  | ['-', 'a'] => algorithm none
  | '-' :: 'a' :: '=' :: value => algorithm (some (String.ofList value))
  | '-' :: 'a' :: value => algorithm (some (String.ofList value))
  | '-' :: 'h' :: _ => help .short
  | '-' :: 'V' :: _ => version
  | '-' :: _ :: _ => unknown
  | _ => operand argument

end Argument

/-- What the arguments taken so far have said. -/
structure Draft where
  algorithms : List Algorithm
  format? : Option Format
  noSteps : Bool
  source? : Option Source

namespace Draft

def empty : Draft := ⟨[], none, false, none⟩

def addAlgorithm (d : Draft) (value : String) : Option Draft :=
  (Algorithm.ofName? value).map fun a => { d with algorithms := d.algorithms ++ [a] }

def setFormat (d : Draft) (value : String) : Option Draft :=
  if d.format?.isSome then none
  else (Format.ofName? value).map fun format => { d with format? := some format }

def setNoSteps (d : Draft) : Option Draft :=
  if d.noSteps then none else some { d with noSteps := true }

def setSource (d : Draft) (value : String) : Option Draft :=
  if d.source?.isSome then none
  else (Source.ofOperand? value).map fun source => { d with source? := some source }

/-- A grammar is read from exactly one source. -/
def finish (d : Draft) : Option Command :=
  d.source?.map fun source =>
    .analyse ⟨d.algorithms, d.format?.getD .text, !d.noSteps, source⟩

/-- Behind the end of the options every argument is an operand. -/
def addOperands (d : Draft) (operands : List String) : Option Command :=
  (operands.foldlM setSource d).bind finish

def add (d : Draft) : List String → Option Command
  | [] => d.finish
  | argument :: rest =>
    match Argument.classify argument with
    | .algorithm (some value) => (d.addAlgorithm value).bind (·.add rest)
    | .algorithm none =>
      match rest with
      | [] => none
      | value :: rest => (d.addAlgorithm value).bind (·.add rest)
    | .format (some value) => (d.setFormat value).bind (·.add rest)
    | .format none =>
      match rest with
      | [] => none
      | value :: rest => (d.setFormat value).bind (·.add rest)
    | .noSteps => d.setNoSteps.bind (·.add rest)
    | .help form => some (.help form)
    | .version => some .version
    | .endOfOptions => d.addOperands rest
    | .operand value => (d.setSource value).bind (·.add rest)
    | .unknown => none

end Draft

/-- The command that the arguments ask for, if they follow the rules. -/
def Command.ofArguments? (arguments : List String) : Option Command :=
  Draft.empty.add arguments

end GrammarFixpoint.CommandLine
