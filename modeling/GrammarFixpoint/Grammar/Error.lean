/-! Why a grammar could not be built. A fault of one line carries the number of
the line, counted from one; the other causes concern a definition as a whole or
a name that no rule can be written with. -/

namespace GrammarFixpoint

/-- What is wrong with a single line. -/
inductive LineFault where
  | missingSeparator
  | multipleSeparators
  | invalidLeftHand (found : String)
  /-- Alternatives are counted from one. -/
  | emptyAlternative (index : Nat)
  | misplacedMarker
  deriving DecidableEq

inductive GrammarError where
  | noRules
  | line (number : Nat) (fault : LineFault)
  | invalidSymbol (name : String)
  | unknownStart (name : String)
  | tooManySymbols
  deriving DecidableEq

def LineFault.message : LineFault → String
  | missingSeparator => "missing `->' separator"
  | multipleSeparators => "more than one `->' separator"
  | invalidLeftHand found => s!"the left-hand side must be a single symbol, found `{found}'"
  | emptyAlternative index => s!"alternative #{index} is empty (write `λ' for the empty string)"
  | misplacedMarker => "`λ' must stand alone in an alternative"

def GrammarError.message : GrammarError → String
  | noRules => "no production rules were given"
  | line number fault => s!"line {number}: {fault.message}"
  | invalidSymbol name => s!"invalid symbol name: `{name}'"
  | unknownStart name => s!"the start symbol `{name}' has no production rule"
  | tooManySymbols => "too many symbols in grammar"

end GrammarFixpoint
