import GrammarFixpoint.Json.Basic

/-! JSON in compact form: no blanks between tokens, and in a text only the quote,
the backslash and the control characters below the space are escaped. What is
printed therefore never holds a line feed. -/

namespace GrammarFixpoint.Json

/-- How a character is written in a quoted text, unless it stands for itself. -/
def escape? (c : Char) : Option String :=
  if c = '"' then some "\\\""
  else if c = '\\' then some "\\\\"
  else if c.toNat = 8 then some "\\b"
  else if c = '\t' then some "\\t"
  else if c = '\n' then some "\\n"
  else if c.toNat = 12 then some "\\f"
  else if c = '\r' then some "\\r"
  else if c.toNat < 32 then
    some (String.ofList ['\\', 'u', '0', '0', Nat.digitChar (c.toNat / 16), Nat.digitChar (c.toNat % 16)])
  else none

def escaped (c : Char) : String := (escape? c).getD (String.singleton c)

def appendQuoted (out text : String) : String :=
  text.toList.foldl (fun out c => out ++ escaped c) (out.push '"') |>.push '"'

mutual

/-- The value printed behind a text, so that printing takes time linear in it. -/
def appendTo (out : String) : Json → String
  | .null => out ++ "null"
  | .bool true => out ++ "true"
  | .bool false => out ++ "false"
  | .number literal => out ++ literal
  | .string value => appendQuoted out value
  | .list items => (appendItems (out.push '[') items).push ']'
  | .object fields => (appendFields (out.push '{') fields).push '}'

def appendItems (out : String) : List Json → String
  | [] => out
  | [item] => item.appendTo out
  | item :: items => appendItems ((item.appendTo out).push ',') items

def appendFields (out : String) : List (String × Json) → String
  | [] => out
  | [(name, value)] => value.appendTo ((appendQuoted out name).push ':')
  | (name, value) :: fields =>
    appendFields ((value.appendTo ((appendQuoted out name).push ':')).push ',') fields

end

def compact (json : Json) : String := json.appendTo ""

end GrammarFixpoint.Json
