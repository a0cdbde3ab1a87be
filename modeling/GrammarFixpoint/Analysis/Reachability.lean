import GrammarFixpoint.Grammar.Printer
import GrammarFixpoint.Trace

/-! Variables in reach of the start symbol. The smallest variable reached but not
expanded yet is expanded next, by looking at every variable of its alternatives.
A variable is expanded once, so the expansions are no more than the variables. -/

namespace GrammarFixpoint

/-- The expansion of one variable. -/
structure Expansion where
  left : String
  /-- What it reaches for the first time, in ascending order. -/
  exposed : List String
  /-- The variables reached up to and including this expansion. -/
  reached : NameSet

namespace Reachability

/-- The variables in a rule that are not in a set, in ascending order. -/
def newIn (alternatives : List Alternative) (reached : NameSet) : List String :=
  (NameSet.ofList
    ((alternatives.flatMap Alternative.variableNames).filter (!reached.contains ·))).toList

/-- The expansions of the pending variables and of what they expose, of which
there are no more than `limit`. -/
def expansions (g : Grammar) : (limit : Nat) → (reached pending : NameSet) → List Expansion
  | 0, _, _ => []
  | limit + 1, reached, pending =>
    match pending.toList with
    | [] => []
    | left :: _ =>
      let exposed := newIn (g.alternatives left) reached
      let reached := reached.insertMany exposed
      ⟨left, exposed, reached⟩ ::
        expansions g limit reached ((pending.erase left).insertMany exposed)

def run (g : Grammar) : List Expansion :=
  expansions g g.table.size (NameSet.ofList [g.start]) (NameSet.ofList [g.start])

def begin (g : Grammar) : Growth where
  reached := NameSet.ofList [g.start]
  explanation := "start symbol"
  added := [g.start]

def explain (g : Grammar) (expansion : Expansion) : String :=
  match expansion.exposed with
  | [] => "expanded " ++ expansion.left ++ ": no new variables"
  | _ => "expanded " ++ (Rule.mk expansion.left (g.alternatives expansion.left)).text

def growth (g : Grammar) (expansion : Expansion) : Growth where
  reached := expansion.reached
  explanation := explain g expansion
  added := expansion.exposed

end Reachability

/-- The variables in some sentential form that the start symbol derives. -/
def Grammar.reachable (g : Grammar) : Traced NameSet :=
  let expansions := Reachability.run g
  { value := (expansions.getLast?.map Expansion.reached).getD (NameSet.ofList [g.start])
    trace := Trace.ofGrowths .reachable Phase.reachable.label
      (Reachability.begin g :: expansions.map (Reachability.growth g)) }

end GrammarFixpoint
