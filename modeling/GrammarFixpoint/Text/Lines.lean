/-! Lines of a text. A line ends at a line feed, and one carriage return just
before that line feed belongs to the end; what follows the last line feed is a
line of its own unless it is empty. -/

namespace GrammarFixpoint.Text

/-- The line without the carriage return that belongs to its end. -/
def dropReturn (line : List Char) : List Char :=
  if line.getLast? = some '\r' then line.dropLast else line

def lines (text : List Char) : List (List Char) :=
  let pieces := text.splitOn '\n'
  let ended := pieces.dropLast.map dropReturn
  match pieces.getLast? with
  | none | some [] => ended
  | some rest => ended ++ [rest]

end GrammarFixpoint.Text
