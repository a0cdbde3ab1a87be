import GrammarFixpoint.Grammar.Basic

/-! Grammars by number. The number of a symbol is its position in the ascending table
of its class, cut to sixteen bits. Both classes are entered into one table from names
to numbers, where a name of both would only keep its later number, and every symbol of
a rule is looked up there by its name alone. A name that is missing there, or a
left-hand side that stands there as a terminal, leaves the grammar without numbers. -/

namespace GrammarFixpoint

/-- The number of a symbol in its class. -/
inductive SymbolId where
  | terminal (id : UInt16)
  | variable (id : UInt16)
  deriving DecidableEq

/-- Rules by number, with the tables that give the numbers their names. -/
structure NumberedGrammar where
  variableNames : List String
  terminalNames : List String
  rules : Std.ExtTreeMap UInt16 (List (List SymbolId))
  start : UInt16

namespace NumberedGrammar

/-- The name of a symbol; a number beyond its table has none. -/
def name? (n : NumberedGrammar) : SymbolId → Option String
  | .terminal id => n.terminalNames[id.toNat]?
  | .variable id => n.variableNames[id.toNat]?

/-- The number of the variable with a name. -/
def variableId? (n : NumberedGrammar) (name : String) : Option UInt16 :=
  (position? n.variableNames name).map UInt16.ofNat

/-- A number without a rule has no alternatives. -/
def alternatives (n : NumberedGrammar) (id : UInt16) : List (List SymbolId) := n.rules.getD id []

end NumberedGrammar

namespace Grammar

abbrev SymbolIds := Std.ExtTreeMap String SymbolId

/-- The names of one class with their positions. -/
def positions (symbolId : UInt16 → SymbolId) (names : List String) : List (String × SymbolId) :=
  names.zipIdx.map fun (name, position) => (name, symbolId (UInt16.ofNat position))

/-- One table for both classes, the variables first. -/
def symbolIds (g : Grammar) : SymbolIds :=
  ((∅ : SymbolIds).insertMany (positions .variable g.variableNames)).insertMany
    (positions .terminal g.terminalNames)

/-- The number of a left-hand side, which has to be a variable. -/
def leftId? (ids : SymbolIds) (left : String) : Option UInt16 :=
  match ids[left]? with
  | some (.variable id) => some id
  | _ => none

def numberedRule? (ids : SymbolIds) (rule : Rule) : Option (UInt16 × List (List SymbolId)) := do
  let alternatives ← rule.alternatives.mapM fun alternative =>
    alternative.mapM fun symbol => ids[symbol.name]?
  return (← leftId? ids rule.left, alternatives)

/-- The grammar by number. A later rule for a number takes the place of an earlier one. -/
def numbered? (g : Grammar) : Option NumberedGrammar := do
  let rules ← g.rules.mapM (numberedRule? g.symbolIds)
  let start ← leftId? g.symbolIds g.start
  return {
    variableNames := g.variableNames
    terminalNames := g.terminalNames
    rules := Std.ExtTreeMap.ofList rules
    start }

end Grammar

end GrammarFixpoint
