import GrammarFixpoint.Analysis.Reachability
import GrammarFixpoint.Analysis.Saturation
import GrammarFixpoint.Grammar.Definition

/-! Removal of useless variables. Variables that derive no string go first, and
reachability is computed over what remains: in the other order a variable that
is only in reach through a removed alternative would stay. -/

namespace GrammarFixpoint

inductive ReductionError where
  /-- The start symbol derives no string of terminals. -/
  | emptyLanguage (start : String)
  | grammar (error : GrammarError)
  deriving DecidableEq

def emptyLanguageMessage (start : String) : String :=
  s!"the grammar generates no string: the start symbol `{start}' is not terminating"

def ReductionError.message : ReductionError → String
  | emptyLanguage start => emptyLanguageMessage start
  | grammar error => error.message

namespace Grammar

/-- The productions of the variables in a set that hold no other variables. -/
def productionsOver (g : Grammar) (keep : NameSet) : List Production :=
  (g.rules.filter fun rule => keep.contains rule.left).flatMap fun rule =>
    (rule.alternatives.filter fun alternative => alternative.variableNames.all keep.contains).map
      fun alternative => ⟨rule.left, alternative.map Symbol.name⟩

/-- The grammar that these productions declare, with the same start symbol. Names are
checked again, and which of them are variables is decided anew. -/
def restrict (g : Grammar) (keep : NameSet) : Except GrammarError Grammar :=
  ofDeclarations (.start g.start :: (g.productionsOver keep).map Production.declaration)

/-- The step between the two passes of a reduction. -/
def transition (g : Grammar) (terminating : NameSet) : Step where
  phase := .useless
  iteration := "TERM → REACH"
  admitted := setNotation terminating.toList
  explanation :=
    match g.variableNames.filter (!terminating.contains ·) with
    | [] => "every variable is terminating"
    | removed => "removed non-terminating variables " ++ setNotation removed
  newVariables := []

/-- The grammar of the variables that occur in a derivation of a string. -/
def eliminateUseless (g : Grammar) : Except ReductionError (Traced Grammar) := do
  let terminating := g.terminating
  if !terminating.value.contains g.start then
    throw (.emptyLanguage g.start)
  let productive ← (g.restrict terminating.value).mapError .grammar
  let reachable := productive.reachable
  let reduced ← (productive.restrict reachable.value).mapError .grammar
  return {
    value := reduced
    trace := terminating.trace ++ g.transition terminating.value :: reachable.trace }

end Grammar

end GrammarFixpoint
