import GrammarFixpoint.Grammar.Definition

/-! Grammars in the making. Where a definition keeps the log of its productions, a builder
keeps the rules that they add up to, and it is changed in place. A call on it can be
refused, which ends nothing: the error is noted, and whatever the call has done to the
builder until then is there when the next call comes. -/

namespace GrammarFixpoint

/-- The rules entered so far, by name. -/
structure Entries where
  /-- The left-hand sides by first appearance. -/
  order : List String
  table : Std.ExtTreeMap String (List (List String))

namespace Entries

def empty : Entries := ⟨[], ∅⟩

/-- One more alternative behind the others of its left-hand side. -/
def enter (entries : Entries) (left : String) (right : List String) : Entries where
  order := if left ∈ entries.table then entries.order else entries.order ++ [left]
  table := entries.table.alter left fun earlier? => some (earlier?.getD [] ++ [right])

/-- The grammar of the rules, once it is known which names are variables. -/
def grammar (entries : Entries) (start : String) : Grammar where
  start := start
  order := entries.order
  table := entries.table.map fun _ alternatives =>
    alternatives.map (List.map (Symbol.classify entries.table.contains))

end Entries

structure Builder where
  entries : Entries
  start? : Option String

namespace Builder

def empty : Builder := ⟨.empty, none⟩

/-- A change of the builder. What it has done stays done where it throws an error. -/
abbrev Change := ExceptT GrammarError (StateM Builder)

def verify (name : String) : Change Unit :=
  if isLegalName name then pure () else throw (.invalidSymbol name)

/-- Nothing is entered before every name has been verified. -/
def rule (left : String) (right : List String) : Change Unit := do
  verify left
  right.forM verify
  modify fun builder => { builder with entries := builder.entries.enter left right }

def change : Declaration → Change Unit
  | .start name => modify fun builder => { builder with start? := some name }
  | .production left right => rule left right

/-- What a declaration is answered, and the builder it leaves. -/
def call (builder : Builder) (declaration : Declaration) : Except GrammarError Unit × Builder :=
  (change declaration).run.run builder

/-- The answers to declarations one after the other, and the builder after the last. -/
def calls (builder : Builder) : List Declaration → List (Except GrammarError Unit) × Builder
  | [] => ([], builder)
  | declaration :: declarations =>
    let (answer, next) := builder.call declaration
    let (answers, last) := next.calls declarations
    (answer :: answers, last)

/-- The declarations that are not refused when their turn comes. -/
def kept (builder : Builder) (declarations : List Declaration) : List Declaration :=
  ((declarations.zip (builder.calls declarations).1).filter (·.2.isOk)).map Prod.fst

/-- The start symbol is the one asked for last, else the left-hand side entered first. -/
def close (builder : Builder) : Except GrammarError Grammar :=
  match builder.start? <|> builder.entries.order.head? with
  | none => .error .noRules
  | some start =>
    let g := builder.entries.grammar start
    if start ∉ builder.entries.table then .error (.unknownStart start)
    else if Grammar.symbolLimit < g.table.size ∨ Grammar.symbolLimit < g.terminalNames.length then
      .error .tooManySymbols
    else .ok g

end Builder

end GrammarFixpoint
