import GrammarFixpoint.Grammar.Printer
import GrammarFixpoint.Trace

/-! Least sets of variables by saturation. A variable is admitted as soon as one
of its alternatives holds only symbols that qualify: variables admitted by an
earlier pass, and terminals where the criterion counts them. A pass looks at
the result of the passes before it only, never at its own, so its number is the
height of the lowest derivation tree. Every pass but the last admits a variable,
which bounds their number by that of the variables. -/

namespace GrammarFixpoint

/-- What an admitted variable derives. -/
inductive Criterion where
  /-- A string of terminals. -/
  | terminating
  /-- The empty string. -/
  | nullable
  deriving DecidableEq

namespace Criterion

def phase : Criterion → Phase
  | terminating => .terminating
  | nullable => .nullable

/-- A terminal leaf is part of a string, but not of the empty one. -/
def admitsTerminals : Criterion → Bool
  | terminating => true
  | nullable => false

def qualifies (c : Criterion) (admitted : NameSet) : Symbol → Bool
  | .terminal _ => c.admitsTerminals
  | .variable name => admitted.contains name

/-- The alternatives that a pass looks for. -/
def describe (c : Criterion) (pass : Nat) : String :=
  let earlier := numberedLabel c.phase.label (pass - 1)
  match c with
  | terminating =>
    if pass = 1 then "alternatives over terminal symbols"
    else "alternatives over terminal symbols and " ++ earlier
  | nullable =>
    if pass = 1 then "productions A -> λ" else "alternatives over " ++ earlier

end Criterion

/-- A variable with the first alternative that admits it. -/
structure License where
  left : String
  alternative : Alternative

/-- One pass that admits something. -/
structure Pass where
  licenses : List License
  /-- The variables admitted up to and including this pass. -/
  admitted : NameSet

namespace Saturation

def license? (c : Criterion) (admitted : NameSet) (rule : Rule) : Option License :=
  (rule.alternatives.find? fun alternative => alternative.all (c.qualifies admitted)).map
    fun alternative => ⟨rule.left, alternative⟩

/-- The passes over the rules of the variables not admitted yet, of which there
are no more than `limit`. -/
def passes (c : Criterion) : (limit : Nat) → NameSet → List Rule → List Pass
  | 0, _, _ => []
  | limit + 1, admitted, candidates =>
    match candidates.filterMap (license? c admitted) with
    | [] => []
    | licenses =>
      let admitted := admitted.insertMany (licenses.map License.left)
      ⟨licenses, admitted⟩ ::
        passes c limit admitted (candidates.filter fun rule => !admitted.contains rule.left)

/-- The passes from the empty set, with candidates in ascending order. -/
def run (c : Criterion) (g : Grammar) : List Pass :=
  let candidates := g.sortedRules
  passes c candidates.length ∅ candidates

def explain (c : Criterion) (pass : Nat) (licenses : List License) : String :=
  let rules :=
    match licenses with
    | [] => "none"
    | licenses => ", ".intercalate (licenses.map fun l => productionText l.left l.alternative)
  c.describe pass ++ ": " ++ rules

def growth (c : Criterion) (pass : Pass) (number : Nat) : Growth where
  reached := pass.admitted
  explanation := explain c number pass.licenses
  added := pass.licenses.map License.left

/-- A pass that admits nothing is written down only where it is the first. -/
def shown (passes : List Pass) : List Pass :=
  match passes with
  | [] => [⟨[], ∅⟩]
  | passes => passes

end Saturation

namespace Grammar

/-- The variables that meet a criterion. -/
def saturate (c : Criterion) (g : Grammar) : Traced NameSet :=
  let passes := Saturation.run c g
  { value := (passes.getLast?.map Pass.admitted).getD ∅
    trace := Trace.ofGrowths c.phase c.phase.label
      (((Saturation.shown passes).zipIdx 1).map fun (pass, number) =>
        Saturation.growth c pass number) }

/-- The variables that derive a string of terminals. -/
def terminating (g : Grammar) : Traced NameSet := g.saturate .terminating

/-- The variables that derive the empty string. -/
def nullable (g : Grammar) : Traced NameSet := g.saturate .nullable

end Grammar

end GrammarFixpoint
