import Std.Data.ExtTreeMap
import GrammarFixpoint.NameSet
import GrammarFixpoint.Symbol

/-! Context-free grammars. The rules are a table from variables to their
alternatives; beside it stands the order in which the variables were first
given a rule, which printing follows and equality ignores. Symbols carry their
names, so two grammars can be compared without a numbering, and the numbers of
symbols are only a view: the positions in the two ascending tables of names. -/

namespace GrammarFixpoint

/-- One right-hand side. The empty one stands for the empty string. -/
abbrev Alternative := List Symbol

namespace Alternative

/-- The variables of an alternative, from left to right and with repeats. -/
def variableNames (alternative : Alternative) : List String :=
  alternative.filterMap Symbol.variableName?

def terminalNames (alternative : Alternative) : List String :=
  alternative.filterMap Symbol.terminalName?

@[simp] theorem mem_variableNames {alternative : Alternative} {name : String} :
    name ∈ alternative.variableNames ↔ Symbol.variable name ∈ alternative := by
  simp [variableNames]

@[simp] theorem mem_terminalNames {alternative : Alternative} {name : String} :
    name ∈ alternative.terminalNames ↔ Symbol.terminal name ∈ alternative := by
  simp [terminalNames]

/-- The variable that is the whole alternative. -/
def unit? : Alternative → Option String
  | [.variable name] => some name
  | _ => none

theorem unit?_eq_some_iff {alternative : Alternative} {name : String} :
    alternative.unit? = some name ↔ alternative = [.variable name] := by
  unfold unit?
  split <;> simp_all

end Alternative

/-- A variable with all its alternatives in written order. -/
structure Rule where
  left : String
  alternatives : List Alternative
  deriving DecidableEq

structure Grammar where
  start : String
  /-- The left-hand sides by first appearance. -/
  order : List String
  table : Std.ExtTreeMap String (List Alternative)

namespace Grammar

/-- Repeated alternatives and their order count, the order of rules does not. -/
instance : BEq Grammar where
  beq a b := a.start == b.start && a.table == b.table

theorem beq_iff {a b : Grammar} : (a == b) = true ↔ a.start = b.start ∧ a.table = b.table := by
  show (a.start == b.start && a.table == b.table) = true ↔ _
  simp

/-- The variables in ascending order. -/
def variableNames (g : Grammar) : List String := g.table.keys

theorem mem_variableNames {g : Grammar} {name : String} : name ∈ g.variableNames ↔ name ∈ g.table :=
  Std.ExtTreeMap.mem_keys

theorem variableNames_ascending (g : Grammar) : g.variableNames.Pairwise (· < ·) :=
  g.table.ordered_keys.imp fun h => compareOfLessAndEq_eq_lt.mp h

/-- A name without a rule has no alternatives. -/
def alternatives (g : Grammar) (left : String) : List Alternative := g.table.getD left []

/-- The rules by first appearance of their left-hand sides. -/
def rules (g : Grammar) : List Rule := g.order.map fun left => ⟨left, g.alternatives left⟩

/-- The rules by ascending left-hand sides. -/
def sortedRules (g : Grammar) : List Rule :=
  g.table.toList.map fun (left, alternatives) => ⟨left, alternatives⟩

/-- The terminals in ascending order. -/
def terminalNames (g : Grammar) : List String :=
  (NameSet.ofList
    (g.table.toList.flatMap fun (_, alternatives) =>
      alternatives.flatMap Alternative.terminalNames)).toList

theorem terminalNames_ascending (g : Grammar) : g.terminalNames.Pairwise (· < ·) :=
  NameSet.toList_ascending _

/-- The number of a variable is its position among all variables. -/
def variableId? (g : Grammar) (name : String) : Option Nat := position? g.variableNames name

end Grammar

end GrammarFixpoint
