import GrammarFixpoint.Grammar.Basic
import GrammarFixpoint.Grammar.Error

/-! Definitions: productions one at a time, by name. Whether a name is a
variable is only known once all productions are, so it is decided when the
definition is closed. A refused production leaves the definition as it was. -/

namespace GrammarFixpoint

/-- One left-hand side with one alternative, both by name. -/
structure Production where
  left : String
  right : List String
  deriving DecidableEq

namespace Production

/-- The names are looked at from left to right and the first illegal one is
named. -/
def checked (left : String) (right : List String) : Except GrammarError Production :=
  match (left :: right).find? (!isLegalName ·) with
  | some name => .error (.invalidSymbol name)
  | none => .ok ⟨left, right⟩

/-- The right-hand side once it is known which names are variables. -/
def alternative (isVariable : String → Bool) (p : Production) : Alternative :=
  p.right.map (Symbol.classify isVariable)

theorem checked_eq_ok_iff {left : String} {right : List String} {p : Production} :
    checked left right = .ok p ↔
      p = ⟨left, right⟩ ∧ ∀ name ∈ left :: right, isLegalName name = true := by
  unfold checked
  split <;> rename_i h
  · have := List.find?_some h
    have hm := List.mem_of_find?_eq_some h
    simp only [reduceCtorEq, false_iff, not_and, Classical.not_forall]
    exact fun _ => ⟨_, hm, by simpa using this⟩
  · simp only [Except.ok.injEq]
    simp only [List.find?_eq_none, Bool.not_eq_true', Bool.not_eq_false] at h
    exact ⟨fun e => ⟨e.symm, h⟩, fun e => e.1.symm⟩

end Production

namespace Grammar

/-- The largest number of variables, and of terminals. -/
def symbolLimit : Nat := 65535

/-- One more production in front of those that are in the table already. -/
def addAlternative (isVariable : String → Bool) (p : Production)
    (table : Std.ExtTreeMap String (List Alternative)) :
    Std.ExtTreeMap String (List Alternative) :=
  table.alter p.left fun later? => some (p.alternative isVariable :: later?.getD [])

/-- The rules that productions add up to: a variable's alternatives are those
of all its productions in order. -/
def ofProductions (start : String) (productions : List Production) : Grammar :=
  let lefts := productions.map Production.left
  { start
    order := firstAppearances lefts
    table := productions.foldr (addAlternative (NameSet.ofList lefts).contains) ∅ }

private theorem getElem?_foldr (isVariable : String → Bool) (productions : List Production)
    (left : String) :
    (productions.foldr (addAlternative isVariable) ∅)[left]? =
      match productions.filter (·.left == left) with
      | [] => none
      | own => some (own.map (Production.alternative isVariable)) := by
  induction productions with
  | nil => simp
  | cons p productions ih =>
    simp only [List.foldr_cons, addAlternative, Std.ExtTreeMap.getElem?_alter,
      Std.LawfulEqOrd.compare_eq_iff_eq, List.filter_cons, beq_iff_eq]
    by_cases h : p.left = left
    · subst h
      simp only [if_true, ih]
      cases productions.filter (·.left == p.left) <;> simp
    · simp [h, ih]

/-- Each variable has the alternatives of its own productions, in order. -/
theorem alternatives_ofProductions (start : String) (productions : List Production)
    (left : String) :
    (ofProductions start productions).alternatives left =
      (productions.filter (·.left == left)).map
        (Production.alternative (productions.map Production.left).contains) := by
  simp only [alternatives, ofProductions, NameSet.contains_ofList,
    Std.ExtTreeMap.getD_eq_getD_getElem?, getElem?_foldr]
  cases productions.filter (·.left == left) <;> simp

theorem mem_table_ofProductions {start : String} {productions : List Production}
    {left : String} :
    left ∈ (ofProductions start productions).table ↔ left ∈ productions.map Production.left := by
  simp only [ofProductions, Std.ExtTreeMap.mem_iff_isSome_getElem?, getElem?_foldr]
  generalize (NameSet.ofList (productions.map Production.left)).contains = isVariable
  induction productions with
  | nil => simp
  | cons p productions ih =>
    by_cases h : p.left = left
    · simp [h]
    · have h' : left ≠ p.left := fun e => h e.symm
      simpa [h, h'] using ih

theorem order_ofProductions (start : String) (productions : List Production) :
    (ofProductions start productions).order =
      (productions.map Production.left).eraseDups :=
  firstAppearances_eq_eraseDups _

/-- Close a definition. The start symbol is the one asked for, else the first
left-hand side. -/
def build (start? : Option String) (productions : List Production) :
    Except GrammarError Grammar :=
  match start? <|> productions.head?.map Production.left with
  | none => .error .noRules
  | some start =>
    let g := ofProductions start productions
    if start ∉ g.table then .error (.unknownStart start)
    else if symbolLimit < g.table.size ∨ symbolLimit < g.terminalNames.length then
      .error .tooManySymbols
    else .ok g

/-- The start symbol and the productions of a grammar within the limit. -/
theorem build_eq_ok_iff {start? : Option String} {productions : List Production} {g : Grammar} :
    build start? productions = .ok g ↔
      ∃ start, (start? <|> productions.head?.map Production.left) = some start ∧
        g = ofProductions start productions ∧ start ∈ g.table ∧
        g.table.size ≤ symbolLimit ∧ g.terminalNames.length ≤ symbolLimit := by
  unfold build
  split
  · next h => simp [h]
  · next start h =>
    simp only [h, Option.some.injEq, exists_eq_left']
    split
    · next absent =>
      simp only [reduceCtorEq, false_iff]
      rintro ⟨rfl, present, -⟩
      exact absent present
    · next present =>
      split
      · next excess =>
        simp only [reduceCtorEq, false_iff]
        rintro ⟨rfl, -, few, few'⟩
        omega
      · next within =>
        simp only [Except.ok.injEq]
        constructor
        · rintro rfl
          exact ⟨rfl, Decidable.not_not.mp present, by omega, by omega⟩
        · exact fun e => e.1.symm

end Grammar

/-- What a definition is made of: a start symbol, or a production by name. -/
inductive Declaration where
  | start (name : String)
  | production (left : String) (right : List String)
  deriving DecidableEq

/-- How the production is declared. -/
def Production.declaration (p : Production) : Declaration := .production p.left p.right

/-- The productions accepted so far and the last start symbol asked for. -/
structure Definition where
  productions : Array Production
  start? : Option String

namespace Definition

def empty : Definition := ⟨#[], none⟩

def declare (d : Definition) : Declaration → Except GrammarError Definition
  | .start name => .ok { d with start? := some name }
  | .production left right =>
    (Production.checked left right).map fun p => { d with productions := d.productions.push p }

/-- The declarations in order up to the first that is refused. -/
def declareAll (d : Definition) (declarations : List Declaration) :
    Except GrammarError Definition :=
  declarations.foldlM declare d

/-- The declarations in order without those that are refused. -/
def declareAccepted (d : Definition) (declarations : List Declaration) : Definition :=
  declarations.foldl (fun d declaration => (d.declare declaration).toOption.getD d) d

def grammar (d : Definition) : Except GrammarError Grammar :=
  Grammar.build d.start? d.productions.toList

end Definition

def Grammar.ofDeclarations (declarations : List Declaration) : Except GrammarError Grammar := do
  (← Definition.empty.declareAll declarations).grammar

end GrammarFixpoint
