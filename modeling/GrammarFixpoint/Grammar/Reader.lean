import GrammarFixpoint.Grammar.Definition
import GrammarFixpoint.Text.Lines

/-! Rule files. A line is a left-hand side, an arrow and alternatives parted by
bars; an alternative is a run of names or a spelling of the empty string alone.
Lines are read in order and the first faulty one decides the error, so what a
text means as a whole is asked only once every line has been read. -/

namespace GrammarFixpoint

namespace RuleLine

/-- The one name before the arrow. -/
def leftHand (text : List Char) : Except LineFault String :=
  match Text.words text with
  | [name] =>
    if isMarker name then .error (.invalidLeftHand (String.ofList (Text.trim text))) else .ok name
  | _ => .error (.invalidLeftHand (String.ofList (Text.trim text)))

/-- The names of the alternative that stands at a position counted from one. -/
def alternative (index : Nat) (words : List String) : Except LineFault (List String) :=
  match words with
  | [] => .error (.emptyAlternative index)
  | [word] => if isMarker word then .ok [] else .ok [word]
  | words => if words.any isMarker then .error .misplacedMarker else .ok words

/-- A line as a left-hand side and the text of its alternatives. -/
def sides (line : List Char) : Except LineFault (String × List Char) :=
  match Text.splitArrow line with
  | [left, right] => (leftHand left).map (·, right)
  | [] | [_] => .error .missingSeparator
  | _ => .error .multipleSeparators

/-- The productions of one line. A left-hand side that no rule can be written
with is refused by the first alternative that has no fault of its own. -/
def productions (number : Nat) (line : List Char) : Except GrammarError (List Production) := do
  let (left, right) ← (sides line).mapError (.line number)
  (right.splitOn '|').zipIdx.mapM fun (text, index) => do
    let names ← (alternative (index + 1) (Text.words text)).mapError (.line number)
    Production.checked left names

end RuleLine

namespace Grammar

/-- The grammar of trimmed lines that carry their numbers. -/
def ofNumberedLines (lines : List (List Char × Nat)) : Except GrammarError Grammar := do
  let productions ← lines.mapM fun (line, number) => RuleLine.productions number line
  build none productions.flatten

/-- One rule per line; no line may be blank. -/
def ofLines (lines : List String) : Except GrammarError Grammar :=
  ofNumberedLines ((lines.map fun line => Text.trim line.toList).zipIdx 1)

/-- One rule per line; blank lines count but are skipped. -/
def ofText (text : String) : Except GrammarError Grammar :=
  ofNumberedLines
    ((((Text.lines text.toList).map Text.trim).zipIdx 1).filter fun (line, _) => !line.isEmpty)

end Grammar

end GrammarFixpoint
