import GrammarFixpoint.Grammar.Numbering
import GrammarFixpoint.Proofs.Built
import GrammarFixpoint.Proofs.Bytes
import GrammarFixpoint.Proofs.Rules

/-! A built grammar has its numbers. No name is in both classes, so the one table from
names to numbers holds every symbol under the position it has in its own class, and
neither class has more names than sixteen bits can tell apart. Every lookup therefore
finds what it looks for, and a number leads back to the name it came from. -/

namespace GrammarFixpoint

namespace Grammar

variable {g : Grammar} {names : List String} {name left : String} {symbol : Symbol}

/-! Positions in a table of names. -/

/-- The position of a name, cut to sixteen bits. -/
def position (names : List String) (name : String) : UInt16 := UInt16.ofNat (names.idxOf name)

theorem toNat_ofNat_of_le {n : Nat} (few : names.length ≤ symbolLimit) (h : n < names.length) :
    (UInt16.ofNat n).toNat = n := by
  unfold symbolLimit at few
  exact UInt16.toNat_ofNat_of_lt' (show n < 65536 by omega)

theorem getElem?_position (few : names.length ≤ symbolLimit) (mem : name ∈ names) :
    names[(position names name).toNat]? = some name := by
  have lt := List.idxOf_lt_length_of_mem mem
  rw [position, toNat_ofNat_of_le few lt, List.getElem?_eq_getElem lt, List.getElem_idxOf lt]

theorem position_eq_of_getElem? (nodup : names.Nodup) {i : Nat} (h : names[i]? = some name) :
    position names name = UInt16.ofNat i := by
  obtain ⟨lt, rfl⟩ := List.getElem?_eq_some_iff.mp h
  rw [position, nodup.idxOf_getElem]

theorem position_inj (few : names.length ≤ symbolLimit) {other : String} (mem : name ∈ names)
    (mem' : other ∈ names) (same : position names name = position names other) : name = other := by
  have found := getElem?_position few mem
  rw [same, getElem?_position few mem'] at found
  exact (Option.some.inj found).symm

theorem map_fst_positions (symbolId : UInt16 → SymbolId) (names : List String) :
    (positions symbolId names).map Prod.fst = names := by
  rw [positions, List.map_map]
  exact List.zipIdx_map_fst 0 names

theorem mem_positions (symbolId : UInt16 → SymbolId) (mem : name ∈ names) :
    (name, symbolId (position names name)) ∈ positions symbolId names := by
  have lt := List.idxOf_lt_length_of_mem mem
  refine List.mem_map.mpr ⟨(name, names.idxOf name), ?_, rfl⟩
  rw [List.mem_zipIdx_iff_getElem?, List.getElem?_eq_getElem lt, List.getElem_idxOf lt]

theorem positions_distinct (symbolId : UInt16 → SymbolId) (nodup : names.Nodup) :
    (positions symbolId names).Pairwise fun a b => ¬ compare a.1 b.1 = .eq := by
  have keys : ((positions symbolId names).map Prod.fst).Nodup := by
    rwa [map_fst_positions]
  exact (List.pairwise_map.mp keys).imp fun ne same => ne (Std.LawfulEqOrd.eq_of_compare same)

/-! The two tables together. -/

/-- The number of a symbol is its position in its own class. -/
def symbolId (g : Grammar) : Symbol → SymbolId
  | .terminal name => .terminal (position g.terminalNames name)
  | .variable name => .variable (position g.variableNames name)

/-- The symbol stands in the table of its class. -/
def Knows (g : Grammar) : Symbol → Prop
  | .terminal name => name ∈ g.terminalNames
  | .variable name => name ∈ g.variableNames

theorem WellFormed.not_mem_terminalNames (hg : g.WellFormed) (mem : name ∈ g.variableNames) :
    name ∉ g.terminalNames := by
  intro terminal
  obtain ⟨left, alternative, own, occurs⟩ := mem_terminalNames.mp terminal
  exact hg.terminal_not_mem own occurs (mem_variableNames.mp mem)

theorem WellFormed.knows (hg : g.WellFormed) {alternative : Alternative}
    (own : alternative ∈ g.alternatives left) (occurs : symbol ∈ alternative) :
    g.Knows symbol := by
  rcases symbol with name | name
  · exact mem_terminalNames.mpr ⟨left, alternative, own, occurs⟩
  · exact mem_variableNames.mpr (hg.variable_mem own occurs)

theorem WellFormed.length_variableNames_le (hg : g.WellFormed) :
    g.variableNames.length ≤ symbolLimit := by
  rw [length_variableNames]
  exact hg.variables_le

/-- No entry of one class takes the place of one of the other. -/
theorem WellFormed.getElem?_symbolIds (hg : g.WellFormed) (symbol : Symbol)
    (known : g.Knows symbol) : g.symbolIds[symbol.name]? = some (g.symbolId symbol) := by
  rcases symbol with name | name
  · exact Std.ExtTreeMap.getElem?_insertMany_list_of_mem Std.ReflCmp.compare_self
      (positions_distinct _ (terminalNames_nodup g)) (mem_positions _ known)
  · have absent : ((positions .terminal g.terminalNames).map Prod.fst).contains name = false := by
      rw [map_fst_positions]
      simpa using hg.not_mem_terminalNames known
    have earlier : g.symbolIds[name]? =
        ((∅ : SymbolIds).insertMany (positions .variable g.variableNames))[name]? :=
      Std.ExtTreeMap.getElem?_insertMany_list_of_contains_eq_false absent
    rw [Symbol.name, earlier]
    exact Std.ExtTreeMap.getElem?_insertMany_list_of_mem Std.ReflCmp.compare_self
      (positions_distinct _ (variableNames_nodup g)) (mem_positions _ known)

/-! Numbering succeeds. -/

/-- The rules by number. -/
def numbering (g : Grammar) : NumberedGrammar where
  variableNames := g.variableNames
  terminalNames := g.terminalNames
  rules := Std.ExtTreeMap.ofList (g.rules.map fun rule =>
    (position g.variableNames rule.left, rule.alternatives.map (List.map g.symbolId)))
  start := position g.variableNames g.start

theorem mapM_eq_some_map {α β : Type} {f : α → Option β} {h : α → β} {xs : List α}
    (each : ∀ x ∈ xs, f x = some (h x)) : xs.mapM f = some (xs.map h) := by
  induction xs with
  | nil => rfl
  | cons x xs ih =>
    obtain ⟨first, each⟩ := List.forall_mem_cons.mp each
    rw [List.mapM_cons, first, ih each]
    rfl

theorem WellFormed.leftId?_eq (hg : g.WellFormed) (mem : left ∈ g.table) :
    leftId? g.symbolIds left = some (position g.variableNames left) := by
  have found : g.symbolIds[left]? = some (.variable (position g.variableNames left)) :=
    hg.getElem?_symbolIds (.variable left) (mem_variableNames.mpr mem)
  rw [leftId?, found]

/-- Every lookup of the numbering finds its symbol. -/
theorem WellFormed.numbered?_eq (hg : g.WellFormed) : g.numbered? = some g.numbering := by
  have rules : g.rules.mapM (numberedRule? g.symbolIds) = some (g.rules.map fun rule =>
      (position g.variableNames rule.left, rule.alternatives.map (List.map g.symbolId))) := by
    apply mapM_eq_some_map
    intro rule mem
    obtain ⟨known, own⟩ := mem_rules.mp mem
    have alternatives : rule.alternatives.mapM (fun alternative =>
        alternative.mapM fun symbol => g.symbolIds[symbol.name]?) =
          some (rule.alternatives.map (List.map g.symbolId)) := by
      apply mapM_eq_some_map
      intro alternative mem
      apply mapM_eq_some_map
      intro symbol occurs
      exact hg.getElem?_symbolIds symbol (hg.knows (own ▸ mem) occurs)
    rw [numberedRule?, alternatives, hg.leftId?_eq (hg.mem_order.mp known)]
    rfl
  rw [numbered?, rules, hg.leftId?_eq hg.start_mem]
  rfl

/-! What the numbers mean. -/

/-- A symbol is found again under its number. -/
theorem WellFormed.name?_symbolId (hg : g.WellFormed) (symbol : Symbol) (known : g.Knows symbol) :
    g.numbering.name? (g.symbolId symbol) = some symbol.name := by
  rcases symbol with name | name
  · exact getElem?_position hg.terminals_le known
  · exact getElem?_position hg.length_variableNames_le known

theorem WellFormed.name?_variable_iff (hg : g.WellFormed) {id : UInt16} :
    g.numbering.name? (.variable id) = some left ↔
      left ∈ g.table ∧ position g.variableNames left = id := by
  constructor
  · intro h
    have own : g.variableNames[id.toNat]? = some left := h
    have eq := position_eq_of_getElem? (variableNames_nodup g) own
    rw [UInt16.ofNat_toNat] at eq
    exact ⟨mem_variableNames.mp (List.mem_of_getElem? own), eq⟩
  · intro h
    obtain ⟨mem, rfl⟩ := h
    exact getElem?_position hg.length_variableNames_le (mem_variableNames.mpr mem)

/-- Left-hand sides have numbers of their own. -/
theorem WellFormed.rules_distinct (hg : g.WellFormed) :
    (g.rules.map fun rule => (position g.variableNames rule.left,
      rule.alternatives.map (List.map g.symbolId))).Pairwise
        fun a b => ¬ compare a.1 b.1 = .eq := by
  have known {rule : Rule} (mem : rule ∈ g.rules) : rule.left ∈ g.variableNames :=
    mem_variableNames.mpr (hg.mem_order.mp (mem_rules.mp mem).1)
  have keys := hg.order_nodup
  rw [← map_left_rules, List.nodup_iff_pairwise_ne, List.pairwise_map] at keys
  rw [List.pairwise_map]
  refine keys.imp_of_mem ?_
  intro rule other mem mem' ne same
  exact ne (position_inj hg.length_variableNames_le (known mem) (known mem')
    (Std.LawfulEqOrd.eq_of_compare same))

theorem WellFormed.getElem?_rules_numbering (hg : g.WellFormed) (mem : left ∈ g.table) :
    g.numbering.rules[position g.variableNames left]? =
      some ((g.alternatives left).map (List.map g.symbolId)) := by
  have rule : Rule.mk left (g.alternatives left) ∈ g.rules :=
    mem_rules.mpr ⟨hg.mem_order.mpr mem, rfl⟩
  exact Std.ExtTreeMap.getElem?_ofList_of_mem Std.ReflCmp.compare_self hg.rules_distinct
    (List.mem_map_of_mem rule)

theorem WellFormed.alternatives_numbering (hg : g.WellFormed) (mem : left ∈ g.table) :
    g.numbering.alternatives (position g.variableNames left) =
      (g.alternatives left).map (List.map g.symbolId) := by
  rw [NumberedGrammar.alternatives, Std.ExtTreeMap.getD_eq_getD_getElem?,
    hg.getElem?_rules_numbering mem, Option.getD_some]

theorem WellFormed.mem_rules_numbering (hg : g.WellFormed) {id : UInt16} :
    id ∈ g.numbering.rules ↔ ∃ left ∈ g.table, position g.variableNames left = id := by
  rw [numbering, Std.ExtTreeMap.mem_ofList, List.contains_iff_mem, List.map_map, List.mem_map]
  constructor
  · intro h
    obtain ⟨rule, mem, rfl⟩ := h
    exact ⟨rule.left, hg.mem_order.mp (mem_rules.mp mem).1, rfl⟩
  · intro h
    obtain ⟨left, mem, rfl⟩ := h
    exact ⟨⟨left, g.alternatives left⟩, mem_rules.mpr ⟨hg.mem_order.mpr mem, rfl⟩, rfl⟩

/-- What is stored under a number is an alternative of the variable with that number. -/
theorem WellFormed.exists_of_mem_alternatives (hg : g.WellFormed) {id : UInt16}
    {right : List SymbolId} (h : right ∈ g.numbering.alternatives id) :
    ∃ left, ∃ alternative ∈ g.alternatives left, right = alternative.map g.symbolId := by
  by_cases known : id ∈ g.numbering.rules
  · obtain ⟨left, mem, rfl⟩ := hg.mem_rules_numbering.mp known
    rw [hg.alternatives_numbering mem] at h
    obtain ⟨alternative, own, rfl⟩ := List.mem_map.mp h
    exact ⟨left, alternative, own, rfl⟩
  · rw [NumberedGrammar.alternatives, Std.ExtTreeMap.getD_eq_fallback known] at h
    cases h

/-! The representation. -/

/-- The numbers of a grammar stand for the productions it was given by name. -/
structure Represents (g : Grammar) (n : NumberedGrammar) (given : List Production) : Prop where
  variables_ascending : (n.variableNames.map bytes).Pairwise (· < ·)
  terminals_ascending : (n.terminalNames.map bytes).Pairwise (· < ·)
  disjoint : ∀ name ∈ n.variableNames, name ∉ n.terminalNames
  /-- The number is the position, which sixteen bits hold. -/
  variable_id : ∀ {i : Nat} {name}, n.variableNames[i]? = some name →
    g.symbolIds[name]? = some (.variable (UInt16.ofNat i)) ∧ (UInt16.ofNat i).toNat = i
  terminal_id : ∀ {i : Nat} {name}, n.terminalNames[i]? = some name →
    g.symbolIds[name]? = some (.terminal (UInt16.ofNat i)) ∧ (UInt16.ofNat i).toNat = i
  start : n.name? (.variable n.start) = some g.start
  mem_rules : ∀ {id}, id ∈ n.rules ↔ id.toNat < n.variableNames.length
  alternatives_ne_nil : ∀ {id}, id ∈ n.rules → n.alternatives id ≠ []
  in_range : ∀ {id right symbol}, right ∈ n.alternatives id → symbol ∈ right →
    (n.name? symbol).isSome = true
  terminal_occurs : ∀ {i : Nat}, i < n.terminalNames.length →
    ∃ id, ∃ right ∈ n.alternatives id, SymbolId.terminal (UInt16.ofNat i) ∈ right
  /-- Symbol for symbol, the names of what is stored are those that were given. -/
  named : ∀ {id left}, n.name? (.variable id) = some left →
    (n.alternatives id).map (List.map n.name?) =
      (given.filter (·.left == left)).map fun p => p.right.map some
  variableId?_isSome : ∀ {name},
    (n.variableId? name).isSome = true ↔ name ∈ given.map Production.left
  name?_variableId? : ∀ {name id}, n.variableId? name = some id →
    n.name? (.variable id) = some name

theorem bytes_ascending (ascending : names.Pairwise (· < ·)) :
    (names.map bytes).Pairwise (· < ·) :=
  List.pairwise_map.mpr (ascending.imp bytes_lt)

/-- Numbers are read as the names of the symbols they were given for. -/
theorem WellFormed.map_name?_numbering (hg : g.WellFormed) (mem : left ∈ g.table) :
    (g.numbering.alternatives (position g.variableNames left)).map (List.map g.numbering.name?) =
      (g.alternatives left).map fun alternative => alternative.map fun symbol => some symbol.name := by
  rw [hg.alternatives_numbering mem, List.map_map]
  apply List.map_congr_left
  intro alternative own
  rw [Function.comp_apply, List.map_map]
  apply List.map_congr_left
  intro symbol occurs
  exact hg.name?_symbolId symbol (hg.knows own occurs)

/-- Looking a name up is the other way round of naming a number. -/
theorem WellFormed.variableId?_eq_some_iff (hg : g.WellFormed) {id : UInt16} :
    g.numbering.variableId? name = some id ↔ g.numbering.name? (.variable id) = some name := by
  have ascending : g.numbering.variableNames.Pairwise (· < ·) := g.variableNames_ascending
  simp only [NumberedGrammar.variableId?, Option.map_eq_some_iff, position?_eq_some_iff ascending]
  constructor
  · rintro ⟨i, own, rfl⟩
    have lt := (List.getElem?_eq_some_iff.mp own).1
    rwa [NumberedGrammar.name?, toNat_ofNat_of_le hg.length_variableNames_le lt]
  · intro own
    exact ⟨id.toNat, own, UInt16.ofNat_toNat⟩

/-- The numbers of a grammar stand for any productions that have its names. -/
theorem WellFormed.represents (hg : g.WellFormed) {given : List Production}
    (lefts : ∀ {left}, left ∈ g.table ↔ left ∈ given.map Production.left)
    (rights : ∀ left, (g.alternatives left).map (List.map Symbol.name) =
      (given.filter (·.left == left)).map Production.right) :
    g.Represents g.numbering given where
  variables_ascending := bytes_ascending g.variableNames_ascending
  terminals_ascending := bytes_ascending g.terminalNames_ascending
  disjoint := fun name => hg.not_mem_terminalNames
  variable_id := by
    intro i name own
    have found := hg.getElem?_symbolIds (.variable name) (List.mem_of_getElem? own)
    rw [symbolId, position_eq_of_getElem? (variableNames_nodup g) own] at found
    exact ⟨found, toNat_ofNat_of_le hg.length_variableNames_le (List.getElem?_eq_some_iff.mp own).1⟩
  terminal_id := by
    intro i name own
    have found := hg.getElem?_symbolIds (.terminal name) (List.mem_of_getElem? own)
    rw [symbolId, position_eq_of_getElem? (terminalNames_nodup g) own] at found
    exact ⟨found, toNat_ofNat_of_le hg.terminals_le (List.getElem?_eq_some_iff.mp own).1⟩
  start := hg.name?_variable_iff.mpr ⟨hg.start_mem, rfl⟩
  mem_rules := by
    intro id
    rw [hg.mem_rules_numbering]
    constructor
    · intro h
      obtain ⟨left, own⟩ := h
      exact (List.getElem?_eq_some_iff.mp (hg.name?_variable_iff.mpr own)).1
    · intro lt
      exact ⟨_, hg.name?_variable_iff.mp (List.getElem?_eq_getElem lt)⟩
  alternatives_ne_nil := by
    intro id mem
    obtain ⟨left, known, rfl⟩ := hg.mem_rules_numbering.mp mem
    rw [hg.alternatives_numbering known]
    simp [hg.alternatives_ne_nil known]
  in_range := by
    intro id right symbol mem occurs
    obtain ⟨left, alternative, own, rfl⟩ := hg.exists_of_mem_alternatives mem
    obtain ⟨symbol, inside, rfl⟩ := List.mem_map.mp occurs
    rw [hg.name?_symbolId symbol (hg.knows own inside)]
    rfl
  terminal_occurs := by
    intro i lt
    obtain ⟨left, alternative, own, occurs⟩ := mem_terminalNames.mp (List.getElem_mem lt)
    have eq := position_eq_of_getElem? (terminalNames_nodup g) (List.getElem?_eq_getElem lt)
    refine ⟨position g.variableNames left, alternative.map g.symbolId, ?_, ?_⟩
    · rw [hg.alternatives_numbering (mem_table_of_mem_alternatives own)]
      exact List.mem_map_of_mem own
    · exact eq ▸ List.mem_map_of_mem occurs
  named := by
    intro id left own
    obtain ⟨mem, rfl⟩ := hg.name?_variable_iff.mp own
    rw [hg.map_name?_numbering mem]
    simpa [Function.comp_def] using congrArg (List.map (List.map some)) (rights left)
  variableId?_isSome := by
    intro name
    rw [Option.isSome_iff_exists, ← lefts]
    simp [hg.variableId?_eq_some_iff, hg.name?_variable_iff]
  name?_variableId? := hg.variableId?_eq_some_iff.mp

/-- Closing a definition of legal productions gives numbers that stand for them. -/
theorem represents_of_build {start? : Option String} {given : List Production}
    (legal : ∀ p ∈ given, p.Legal) (h : build start? given = .ok g) :
    ∃ n, g.numbered? = some n ∧ g.Represents n given := by
  have hg : g.WellFormed := .of_build h legal
  obtain ⟨start, -, rfl, -⟩ := build_eq_ok_iff.mp h
  refine ⟨_, hg.numbered?_eq, hg.represents mem_table_ofProductions ?_⟩
  intro left
  rw [alternatives_ofProductions, List.map_map]
  apply List.map_congr_left
  intro p _
  rw [Function.comp_apply, Production.alternative, List.map_map]
  simp [Function.comp_def]

/-! Too many symbols. -/

/-- A definition with a rule for its start symbol is refused where a class has too many names. -/
theorem build_eq_tooManySymbols_iff {start? : Option String} {given : List Production}
    {start : String} (asked : (start? <|> given.head?.map Production.left) = some start)
    (known : start ∈ given.map Production.left) :
    build start? given = .error .tooManySymbols ↔
      65535 < (given.map Production.left).eraseDups.length ∨
        65535 < ((given.flatMap Production.right).filter
          fun name => name ∉ given.map Production.left).eraseDups.length := by
  rw [← size_ofProductions start, ← length_terminalNames_ofProductions start, build, asked]
  simp only [mem_table_ofProductions, known, not_true_eq_false, if_false]
  split
  · next excess => simpa [symbolLimit] using excess
  · next within => simpa [symbolLimit] using within

end Grammar

namespace Declaration

/-- The productions that are accepted, in order. -/
def accepted (declarations : List Declaration) : List Production :=
  declarations.filterMap production?

/-- The last start symbol that is asked for, else the first left-hand side. -/
def asked? (declarations : List Declaration) : Option String :=
  (declarations.filterMap start?).getLast?.or ((accepted declarations).head?.map Production.left)

end Declaration

namespace Grammar

open Declaration

/-- Whether refused declarations end a definition or are passed over: a grammar that
comes out has numbers, which stand for all that was accepted, and too many symbols are
the only fault of a definition whose start symbol has a rule. -/
theorem declared_represents {declarations : List Declaration} {d : Definition}
    (calls : Definition.empty.declareAll declarations = .ok d ∨
      Definition.empty.declareAccepted declarations = d) :
    (∀ g, d.grammar = .ok g →
      ∃ n, g.numbered? = some n ∧ g.Represents n (accepted declarations)) ∧
    ∀ start, asked? declarations = some start →
      start ∈ (accepted declarations).map Production.left →
      (d.grammar = .error .tooManySymbols ↔
        65535 < ((accepted declarations).map Production.left).eraseDups.length ∨
        65535 < (((accepted declarations).flatMap Production.right).filter
          fun name => name ∉ (accepted declarations).map Production.left).eraseDups.length) := by
  have same : Definition.empty.declareAccepted declarations = d :=
    calls.elim Definition.declareAccepted_of_declareAll id
  have given : d.productions.toList = accepted declarations := by
    rw [← same, (Definition.declareAccepted_eq _ _).1]
    rfl
  have start : d.start? = (declarations.filterMap start?).getLast? := by
    rw [← same, (Definition.declareAccepted_eq _ _).2, Definition.empty, Option.or_none]
  have legal : ∀ p ∈ accepted declarations, p.Legal := by
    have legal := Definition.legal_empty.declareAccepted declarations
    rwa [same, Definition.Legal, given] at legal
  rw [Definition.grammar, given, start]
  refine ⟨fun g built => represents_of_build legal built, fun start asked known => ?_⟩
  exact build_eq_tooManySymbols_iff (by simpa [asked?] using asked) known

/-- Calls of which one is refused. The start symbol is asked for before it has a rule. -/
def partlyRefused : List Declaration :=
  [.start "S", .production "T" ["a", "S"], .production "A|B" ["a"], .production "S" ["b", "T"],
    .production "T" []]

theorem declared_represents_of_partlyRefused :
    ∃ g n, (Definition.empty.declareAccepted partlyRefused).grammar = .ok g ∧
      g.numbered? = some n ∧
      g.Represents n [⟨"T", ["a", "S"]⟩, ⟨"S", ["b", "T"]⟩, ⟨"T", []⟩] ∧
      (Definition.empty.declareAccepted partlyRefused).grammar ≠ .error .tooManySymbols := by
  have given : accepted partlyRefused = [⟨"T", ["a", "S"]⟩, ⟨"S", ["b", "T"]⟩, ⟨"T", []⟩] := by
    decide
  have shown : (Definition.empty.declareAccepted partlyRefused).grammar.toOption.map
      Grammar.start = some "S" := by
    decide
  obtain ⟨g, built, -⟩ := exists_ok_of_shown shown
  obtain ⟨represents, excess⟩ :=
    declared_represents (d := Definition.empty.declareAccepted partlyRefused) (.inr rfl)
  obtain ⟨n, numbered, represented⟩ := represents g built
  rw [given] at represented excess
  exact ⟨g, n, built, numbered, represented,
    mt (excess "S" (by decide) (by decide)).mp (by decide)⟩

end Grammar

end GrammarFixpoint
