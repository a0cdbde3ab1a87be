import GrammarFixpoint.Analysis.UnitClosure
import GrammarFixpoint.Reduction

/-! The analyses that can be asked for by name, and what they answer. An outcome
is text and lists only, like the steps that come with it. -/

namespace GrammarFixpoint

inductive Algorithm where
  | terminating
  | nullable
  | reachable
  | unit
  | useless
  deriving DecidableEq

namespace Algorithm

def all : List Algorithm := [terminating, nullable, reachable, unit, useless]

def name : Algorithm → String
  | terminating => "terminating"
  | nullable => "nullable"
  | reachable => "reachable"
  | unit => "unit"
  | useless => "useless"

def title : Algorithm → String
  | terminating => "Terminating variables"
  | nullable => "Nullable variables"
  | reachable => "Reachable variables"
  | unit => "Unit closures"
  | useless => "Grammar without useless variables"

def ofName? (name : String) : Option Algorithm := all.find? (·.name == name)

theorem ofName?_name (a : Algorithm) : ofName? a.name = some a := by
  cases a <;> rfl

end Algorithm

inductive Outcome where
  | set (title : String) (values : List String) (steps : Trace)
  /-- Keys ascend. -/
  | mapping (title : String) (values : List (String × List String)) (steps : Trace)
  | grammar (title : String) (value : Snapshot) (steps : Trace)
  deriving DecidableEq

namespace Outcome

def title : Outcome → String
  | set title .. | mapping title .. | grammar title .. => title

def steps : Outcome → Trace
  | set _ _ steps | mapping _ _ steps | grammar _ _ steps => steps

def ofSet (title : String) (result : Traced NameSet) : Outcome :=
  .set title result.value.toList result.trace

end Outcome

/-- Run an analysis; only a reduction can fail. -/
def Grammar.outcome (g : Grammar) (algorithm : Algorithm) : Except ReductionError Outcome :=
  let title := algorithm.title
  match algorithm with
  | .terminating => .ok (.ofSet title g.terminating)
  | .nullable => .ok (.ofSet title g.nullable)
  | .reachable => .ok (.ofSet title g.reachable)
  | .unit =>
    let closures := g.unitClosures
    .ok (.mapping title (closures.value.map fun (left, closure) => (left, closure.toList))
      closures.trace)
  | .useless =>
    g.eliminateUseless.map fun reduced =>
      .grammar title reduced.value.snapshot reduced.trace

end GrammarFixpoint
