import GrammarFixpoint.Json.Basic

/-! How a JSON value says which of several things is meant. A bare name is a
string, or an object with that name as its only field and nothing in it. A tag
is a string beside the other fields of an object. Inside a tagged value there is
more freedom: an empty object is nothing too, and a tag may be given by its
place in the list of tags. Both are always written as strings. -/

namespace GrammarFixpoint.Json

/-- What a value that is read stands in. A value inside a tagged one is read
after the tag, wherever the tag was. -/
inductive Enclosure where
  | untagged
  | tagged

def isNothing : Enclosure → Json → Bool
  | _, .null => true
  | .tagged, .object [] => true
  | _, _ => false

def name? (enclosure : Enclosure) : Json → Option String
  | .string name => some name
  | .object [(name, content)] => if isNothing enclosure content then some name else none
  | _ => none

/-- The tag in a field of an object. Places count from 0. -/
def tag? (enclosure : Enclosure) (tags : List String) (field : String) (json : Json) :
    Option String :=
  match enclosure, json.field? field with
  | _, some (.string tag) => tags.find? (· == tag)
  | .tagged, some (.number literal) =>
    (tags.zipIdx.find? fun (_, place) => toString place == literal).map Prod.fst
  | _, _ => none

end GrammarFixpoint.Json
