import GrammarFixpoint.Grammar.Basic

/-! Grammars as text. What is printed here is what rule files hold: names parted
by single spaces, alternatives by bars, and one line per rule. -/

namespace GrammarFixpoint

def Alternative.text : Alternative → String
  | [] => emptyMarker
  | symbols => " ".intercalate (symbols.map Symbol.name)

/-- A single production. -/
def productionText (left : String) (alternative : Alternative) : String :=
  left ++ " -> " ++ alternative.text

def Rule.text (rule : Rule) : String :=
  rule.left ++ " -> " ++ " | ".intercalate (rule.alternatives.map Alternative.text)

namespace Grammar

def text (g : Grammar) : String := String.join (g.rules.map fun rule => rule.text ++ "\n")

end Grammar

/-- What a grammar shows of itself, by name and with alternatives as text. -/
structure Snapshot where
  start : String
  variableNames : List String
  terminalNames : List String
  /-- In the order of the rules. -/
  productions : List (String × List String)
  deriving DecidableEq

/-- A line for each rule in the shortest spelling that is read back: the arrow of
one character, and no blanks around the bars. -/
def Snapshot.ruleLines (snapshot : Snapshot) : List String :=
  snapshot.productions.map fun (left, alternatives) =>
    left ++ " → " ++ "|".intercalate alternatives

def Grammar.snapshot (g : Grammar) : Snapshot where
  start := g.start
  variableNames := g.variableNames
  terminalNames := g.terminalNames
  productions := g.rules.map fun rule => (rule.left, rule.alternatives.map Alternative.text)

end GrammarFixpoint
