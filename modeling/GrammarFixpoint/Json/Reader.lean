import GrammarFixpoint.Json.Basic

/-! Reading JSON. Every function takes the characters that are left and gives
back those behind what it has read. A list or an object takes at least one
character for each value in it and one more for itself, which bounds the nesting
of calls by twice the length of the text. -/

namespace GrammarFixpoint.Json

def isSpace (c : Char) : Bool := c = ' ' || c = '\t' || c = '\n' || c = '\r'

def skipSpace (text : List Char) : List Char := text.dropWhile isSpace

def hexValue? (c : Char) : Option Nat :=
  if '0' ≤ c && c ≤ '9' then some (c.toNat - 48)
  else if 'a' ≤ c && c ≤ 'f' then some (c.toNat - 87)
  else if 'A' ≤ c && c ≤ 'F' then some (c.toNat - 55)
  else none

def hexUnit? (a b c d : Char) : Option Nat := do
  return (← hexValue? a) * 4096 + (← hexValue? b) * 256 + (← hexValue? c) * 16 + (← hexValue? d)

/-- The character behind a backslash, except for the numbered ones. -/
def unescape? (c : Char) : Option Char :=
  match c with
  | '"' => some '"'
  | '\\' => some '\\'
  | '/' => some '/'
  | 'b' => some (Char.ofNat 8)
  | 'f' => some (Char.ofNat 12)
  | 'n' => some '\n'
  | 'r' => some '\r'
  | 't' => some '\t'
  | _ => none

/-- What follows an opening quote. A numbered character beyond the first plane is
two units; the first one waits in `high` for the second, and none may be alone. -/
def readQuoted (high : Option Nat) (read : List Char) :
    List Char → Option (String × List Char)
  | '"' :: rest => if high.isSome then none else some (String.ofList read.reverse, rest)
  | '\\' :: 'u' :: a :: b :: c :: d :: rest =>
    match hexUnit? a b c d, high with
    | none, _ => none
    | some unit, none =>
      if 0xD800 ≤ unit && unit < 0xDC00 then readQuoted (some unit) read rest
      else if 0xDC00 ≤ unit && unit < 0xE000 then none
      else readQuoted none (Char.ofNat unit :: read) rest
    | some unit, some high =>
      if 0xDC00 ≤ unit && unit < 0xE000 then
        readQuoted none
          (Char.ofNat (0x10000 + (high - 0xD800) * 0x400 + (unit - 0xDC00)) :: read) rest
      else none
  | '\\' :: c :: rest =>
    match unescape? c, high with
    | some c, none => readQuoted none (c :: read) rest
    | _, _ => none
  | c :: rest =>
    if high.isSome || c = '\\' || c.toNat < 32 then none else readQuoted none (c :: read) rest
  | [] => none

def isDigits (text : List Char) : Bool := !text.isEmpty && text.all Char.isDigit

/-- What follows the whole part of a number: a fraction, an exponent, or both. -/
def isNumberTail (text : List Char) : Bool :=
  let (fraction, exponent) := text.span fun c => c != 'e' && c != 'E'
  (match fraction with
    | [] => true
    | '.' :: digits => isDigits digits
    | _ => false) &&
  match exponent with
  | [] => true
  | _ :: '+' :: digits | _ :: '-' :: digits => isDigits digits
  | _ :: digits => isDigits digits

def isNumber (text : List Char) : Bool :=
  let unsigned := match text with
    | '-' :: rest => rest
    | rest => rest
  match unsigned.span Char.isDigit with
  | (['0'], rest) => isNumberTail rest
  | ('0' :: _, _) => false
  | (digits, rest) => isDigits digits && isNumberTail rest

def readNumber (text : List Char) : Option (Json × List Char) :=
  let (literal, rest) := text.span fun c => c.isDigit || "+-.eE".toList.contains c
  if isNumber literal then some (.number (String.ofList literal), rest) else none

mutual

def readValue : (fuel : Nat) → List Char → Option (Json × List Char)
  | 0, _ => none
  | fuel + 1, text =>
    match text with
    | '"' :: rest => (readQuoted none [] rest).map fun (value, rest) => (.string value, rest)
    | '[' :: rest =>
      match skipSpace rest with
      | ']' :: rest => some (.list [], rest)
      | rest => readItems fuel [] rest
    | '{' :: rest =>
      match skipSpace rest with
      | '}' :: rest => some (.object [], rest)
      | rest => readFields fuel [] rest
    | 'n' :: 'u' :: 'l' :: 'l' :: rest => some (.null, rest)
    | 't' :: 'r' :: 'u' :: 'e' :: rest => some (.bool true, rest)
    | 'f' :: 'a' :: 'l' :: 's' :: 'e' :: rest => some (.bool false, rest)
    | text => readNumber text

/-- The rest of a list, behind the items read so far in reverse. -/
def readItems : (fuel : Nat) → List Json → List Char → Option (Json × List Char)
  | 0, _, _ => none
  | fuel + 1, items, text =>
    match readValue fuel (skipSpace text) with
    | none => none
    | some (item, rest) =>
      match skipSpace rest with
      | ',' :: rest => readItems fuel (item :: items) rest
      | ']' :: rest => some (.list (item :: items).reverse, rest)
      | _ => none

/-- The rest of an object, behind the fields read so far in reverse. -/
def readFields : (fuel : Nat) → List (String × Json) → List Char → Option (Json × List Char)
  | 0, _, _ => none
  | fuel + 1, fields, text =>
    match skipSpace text with
    | '"' :: rest =>
      match readQuoted none [] rest with
      | none => none
      | some (name, rest) =>
        match skipSpace rest with
        | ':' :: rest =>
          match readValue fuel (skipSpace rest) with
          | none => none
          | some (value, rest) =>
            match skipSpace rest with
            | ',' :: rest => readFields fuel ((name, value) :: fields) rest
            | '}' :: rest => some (.object ((name, value) :: fields).reverse, rest)
            | _ => none
        | _ => none
    | _ => none

end

/-- The one value that a text holds, with nothing but space around it. -/
def ofText? (text : String) : Option Json :=
  let chars := text.toList
  match readValue (2 * chars.length + 2) (skipSpace chars) with
  | none => none
  | some (value, rest) => if (skipSpace rest).isEmpty then some value else none

end GrammarFixpoint.Json
