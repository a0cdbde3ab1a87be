import GrammarFixpoint.Grammar.Printer
import GrammarFixpoint.Trace

/-! Unit closures: what a variable derives by productions whose right-hand side
is a single variable. As in reachability the smallest pending variable is
expanded next, but every link to a new variable is a step of its own, so the
links of one closure form a tree over it. -/

namespace GrammarFixpoint

/-- A unit production that adds its target to a closure. -/
structure UnitLink where
  source : String
  target : String
  /-- The closure with the target. -/
  closure : NameSet

namespace UnitClosure

/-- The links from one variable: a target that is in the closure already, also
through an earlier alternative, makes none. -/
def links (source : String) : (targets : List String) → (closure : NameSet) → List UnitLink
  | [], _ => []
  | target :: targets, closure =>
    if closure.contains target then links source targets closure
    else
      let closure := closure.insert target
      ⟨source, target, closure⟩ :: links source targets closure

/-- The links from the pending variables and from what they add, by no more than
`limit` expansions. -/
def explore (g : Grammar) : (limit : Nat) → (closure pending : NameSet) → List UnitLink
  | 0, _, _ => []
  | limit + 1, closure, pending =>
    match pending.toList with
    | [] => []
    | source :: _ =>
      let found := links source ((g.alternatives source).filterMap Alternative.unit?) closure
      let added := found.map UnitLink.target
      found ++ explore g limit (closure.insertMany added) ((pending.erase source).insertMany added)

def run (g : Grammar) (origin : String) : List UnitLink :=
  explore g g.table.size (NameSet.ofList [origin]) (NameSet.ofList [origin])

def begin (origin : String) : Growth where
  reached := NameSet.ofList [origin]
  explanation := "zero-length chain " ++ origin ++ " ⇒* " ++ origin
  added := [origin]

def growth (link : UnitLink) : Growth where
  reached := link.closure
  explanation := "unit production " ++ productionText link.source [.variable link.target]
  added := [link.target]

def label (origin : String) : String := Phase.unit.label ++ "(" ++ origin ++ ")"

end UnitClosure

namespace Grammar

/-- The variables at the end of a chain of unit productions, itself included. -/
def unitClosure (g : Grammar) (origin : String) : Traced NameSet :=
  let links := UnitClosure.run g origin
  { value := (links.getLast?.map UnitLink.closure).getD (NameSet.ofList [origin])
    trace := Trace.ofGrowths .unit (UnitClosure.label origin)
      (UnitClosure.begin origin :: links.map UnitClosure.growth) }

/-- The closure of every variable, in ascending order. -/
def unitClosures (g : Grammar) : Traced (List (String × NameSet)) :=
  let closures := g.variableNames.map fun origin => (origin, g.unitClosure origin)
  { value := closures.map fun (origin, closure) => (origin, closure.value)
    trace := closures.flatMap fun (_, closure) => closure.trace }

end Grammar

end GrammarFixpoint
