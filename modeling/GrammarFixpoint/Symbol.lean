import GrammarFixpoint.Text.Arrow
import GrammarFixpoint.Text.Blank

/-! Symbols of a grammar and the names they may have. A name must survive being
written into a rule: it holds nothing that parts words, alternatives or the two
sides, and it is no spelling of the empty string. -/

namespace GrammarFixpoint

inductive Symbol where
  | terminal (name : String)
  | variable (name : String)
  deriving DecidableEq

namespace Symbol

def name : Symbol → String
  | .terminal name => name
  | .variable name => name

/-- The name of a variable; a terminal has none. -/
def variableName? : Symbol → Option String
  | .terminal _ => none
  | .variable name => some name

/-- The name of a terminal; a variable has none. -/
def terminalName? : Symbol → Option String
  | .terminal name => some name
  | .variable _ => none

@[simp] theorem variableName?_eq_some_iff {symbol : Symbol} {name : String} :
    symbol.variableName? = some name ↔ symbol = .variable name := by
  cases symbol <;> simp [variableName?]

@[simp] theorem terminalName?_eq_some_iff {symbol : Symbol} {name : String} :
    symbol.terminalName? = some name ↔ symbol = .terminal name := by
  cases symbol <;> simp [terminalName?]

/-- A name is a variable where the grammar has a rule for it, else a terminal. -/
def classify (isVariable : String → Bool) (name : String) : Symbol :=
  if isVariable name then .variable name else .terminal name

@[simp] theorem name_classify (isVariable : String → Bool) (name : String) :
    (classify isVariable name).name = name := by
  unfold classify
  split <;> rfl

@[simp] theorem classify_eq_variable_iff {isVariable : String → Bool} {name other : String} :
    classify isVariable name = .variable other ↔ name = other ∧ isVariable name = true := by
  unfold classify
  split <;> simp_all

@[simp] theorem classify_eq_terminal_iff {isVariable : String → Bool} {name other : String} :
    classify isVariable name = .terminal other ↔ name = other ∧ isVariable name = false := by
  unfold classify
  split <;> simp_all

end Symbol

/-- How the empty string is written. -/
def emptyMarker : String := "λ"

/-- Every spelling of the empty string that is read. -/
def markerSpellings : List String := [emptyMarker, "ε", "epsilon"]

def isMarker (word : String) : Bool := markerSpellings.contains word

/-- What a rule can be written with; the single-character arrow is allowed here,
although a rule that is read back takes it for a separator. -/
def isLegalName (name : String) : Bool :=
  let text := name.toList
  !text.isEmpty && text.all (fun c => !Text.isBlank c && c != '|') && !Text.hasArrow text &&
    !isMarker name

end GrammarFixpoint
