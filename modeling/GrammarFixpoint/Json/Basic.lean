/-! JSON values. The fields of an object keep their order, which is the order
that rules and mappings are shown in. A number is kept as it is written, since
no value that this library stores holds one. -/

namespace GrammarFixpoint

inductive Json where
  | null
  | bool (value : Bool)
  | number (literal : String)
  | string (value : String)
  | list (items : List Json)
  | object (fields : List (String × Json))

namespace Json

def nat (n : Nat) : Json := .number (toString n)

def strings (values : List String) : Json := .list (values.map .string)

def string? : Json → Option String
  | .string value => some value
  | _ => none

def list? : Json → Option (List Json)
  | .list items => some items
  | _ => none

def object? : Json → Option (List (String × Json))
  | .object fields => some fields
  | _ => none

/-- A field of an object; where a key is repeated its first value counts. -/
def field? (json : Json) (name : String) : Option Json :=
  json.object?.bind (·.lookup name)

def stringField? (json : Json) (name : String) : Option String :=
  (json.field? name).bind string?

def strings? (json : Json) : Option (List String) :=
  json.list?.bind (·.mapM string?)

end Json

end GrammarFixpoint
