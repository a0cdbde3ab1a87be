import GrammarFixpoint.Grammar.Reader

/-! What every built grammar satisfies. The fields of a grammar could disagree:
the order could name a variable twice or one without a rule, a symbol could be
of the wrong class. The three ways to build one, by declarations, from a text and
from lines, all end in `Grammar.build`, and closing a definition of legal
productions rules all of this out. The analyses rely on nothing else. -/

namespace GrammarFixpoint

private theorem eraseDups_nodup (names : List String) : names.eraseDups.Nodup := by
  match names with
  | [] => simp
  | name :: names =>
    rw [List.eraseDups_cons, List.nodup_cons]
    exact ⟨by simp, eraseDups_nodup _⟩
termination_by names.length
decreasing_by
  have := List.length_filter_le (fun other => !other == name) names
  simp only [List.length_cons]
  omega

theorem firstAppearances_nodup (names : List String) : (firstAppearances names).Nodup := by
  rw [firstAppearances_eq_eraseDups]
  exact eraseDups_nodup names

namespace Production

/-- Every name of the production can be written into a rule. -/
def Legal (p : Production) : Prop := ∀ name ∈ p.left :: p.right, isLegalName name = true

theorem legal_of_checked {left : String} {right : List String} {p : Production}
    (h : checked left right = .ok p) : p.Legal := by
  obtain ⟨rfl, legal⟩ := checked_eq_ok_iff.mp h
  exact legal

end Production

namespace Grammar

/-- The fields of a grammar agree with each other. -/
structure WellFormed (g : Grammar) : Prop where
  start_mem : g.start ∈ g.table
  mem_order : ∀ {left}, left ∈ g.order ↔ left ∈ g.table
  order_nodup : g.order.Nodup
  alternatives_ne_nil : ∀ {left}, left ∈ g.table → g.alternatives left ≠ []
  /-- A name is a variable exactly where the grammar has a rule for it. -/
  variable_mem : ∀ {left alternative name}, alternative ∈ g.alternatives left →
    Symbol.variable name ∈ alternative → name ∈ g.table
  terminal_not_mem : ∀ {left alternative name}, alternative ∈ g.alternatives left →
    Symbol.terminal name ∈ alternative → name ∉ g.table
  legal_left : ∀ {left}, left ∈ g.table → isLegalName left = true
  legal_symbol : ∀ {left alternative symbol}, alternative ∈ g.alternatives left →
    symbol ∈ alternative → isLegalName symbol.name = true
  variables_le : g.table.size ≤ symbolLimit
  terminals_le : g.terminalNames.length ≤ symbolLimit

theorem mem_table_of_mem_alternatives {g : Grammar} {left : String} {alternative : Alternative}
    (h : alternative ∈ g.alternatives left) : left ∈ g.table := by
  apply Decidable.byContradiction
  intro absent
  rw [alternatives, Std.ExtTreeMap.getD_eq_fallback absent] at h
  exact List.not_mem_nil h

theorem getElem?_table {g : Grammar} {left : String} (h : left ∈ g.table) :
    g.table[left]? = some (g.alternatives left) :=
  Std.ExtTreeMap.getElem?_eq_some_getD h

theorem mem_terminalNames {g : Grammar} {name : String} :
    name ∈ g.terminalNames ↔
      ∃ left, ∃ alternative ∈ g.alternatives left, Symbol.terminal name ∈ alternative := by
  simp only [terminalNames, Std.ExtTreeSet.mem_toList, NameSet.mem_ofList, List.mem_flatMap,
    Alternative.mem_terminalNames, Prod.exists, Std.ExtTreeMap.mem_toList_iff_getElem?_eq_some]
  constructor
  · intro h
    obtain ⟨left, own, found, alternative, mem, occurs⟩ := h
    refine ⟨left, alternative, ?_, occurs⟩
    rwa [alternatives, Std.ExtTreeMap.getD_eq_getD_getElem?, found]
  · intro h
    obtain ⟨left, alternative, mem, occurs⟩ := h
    exact ⟨left, g.alternatives left, getElem?_table (mem_table_of_mem_alternatives mem),
      alternative, mem, occurs⟩

theorem terminalNames_nodup (g : Grammar) : g.terminalNames.Nodup :=
  g.terminalNames_ascending.imp fun h => String.ne_of_lt h

theorem length_variableNames (g : Grammar) : g.variableNames.length = g.table.size :=
  Std.ExtTreeMap.length_keys

theorem variableNames_nodup (g : Grammar) : g.variableNames.Nodup :=
  g.variableNames_ascending.imp fun h => String.ne_of_lt h

theorem toList_eq_variableNames {g : Grammar} {set : NameSet}
    (same : ∀ name, name ∈ set ↔ name ∈ g.table) : set.toList = g.variableNames := by
  refine NameSet.eq_of_ascending (NameSet.toList_ascending set) g.variableNames_ascending ?_
  intro name
  rw [Std.ExtTreeSet.mem_toList, mem_variableNames, same]

theorem size_le_of_subset {g r : Grammar} (h : ∀ left ∈ r.table, left ∈ g.table) :
    r.table.size ≤ g.table.size := by
  rw [← length_variableNames, ← length_variableNames]
  apply (variableNames_nodup r).length_le_of_subset
  intro left mem
  exact mem_variableNames.mpr (h left (mem_variableNames.mp mem))

theorem length_terminalNames_le_of_subset {g r : Grammar}
    (h : ∀ left, ∀ alternative ∈ r.alternatives left, alternative ∈ g.alternatives left) :
    r.terminalNames.length ≤ g.terminalNames.length := by
  apply (terminalNames_nodup r).length_le_of_subset
  intro name mem
  obtain ⟨left, alternative, own, occurs⟩ := mem_terminalNames.mp mem
  exact mem_terminalNames.mpr ⟨left, alternative, h left alternative own, occurs⟩

/-- Tables are the same where they know the same variables by the same alternatives. -/
theorem table_eq_of_alternatives {g h : Grammar} (mem : ∀ left, left ∈ g.table ↔ left ∈ h.table)
    (same : ∀ left ∈ g.table, g.alternatives left = h.alternatives left) : g.table = h.table := by
  refine Std.ExtTreeMap.ext_getElem? ?_
  intro left
  by_cases known : left ∈ g.table
  · rw [getElem?_table known, getElem?_table ((mem left).mp known), same left known]
  · have absent : left ∉ h.table := fun known' => known ((mem left).mpr known')
    rw [Std.ExtTreeMap.getElem?_eq_none known, Std.ExtTreeMap.getElem?_eq_none absent]

/-- Grammars whose orders are those of their tables are the same where all they
show is. -/
theorem eq_of_alternatives {g h : Grammar} (hg : ∀ {left}, left ∈ g.order ↔ left ∈ g.table)
    (hh : ∀ {left}, left ∈ h.order ↔ left ∈ h.table) (start : g.start = h.start)
    (order : g.order = h.order) (same : ∀ left, g.alternatives left = h.alternatives left) :
    g = h := by
  have table : g.table = h.table :=
    table_eq_of_alternatives (fun left => by rw [← hg, ← hh, order]) fun left _ => same left
  cases g; cases h
  congr

theorem mem_order_ofProductions {start : String} {productions : List Production} {left : String} :
    left ∈ (ofProductions start productions).order ↔
      left ∈ (ofProductions start productions).table := by
  rw [order_ofProductions, List.mem_eraseDups, mem_table_ofProductions]

/-- An alternative of the closed definition is one of its productions. -/
theorem exists_production {start : String} {productions : List Production} {left : String}
    {alternative : Alternative}
    (h : alternative ∈ (ofProductions start productions).alternatives left) :
    ∃ p ∈ productions, p.left = left ∧
      alternative = p.alternative (productions.map Production.left).contains := by
  rw [alternatives_ofProductions] at h
  obtain ⟨p, own, rfl⟩ := List.mem_map.mp h
  obtain ⟨mem, same⟩ := List.mem_filter.mp own
  exact ⟨p, mem, by simpa using same, rfl⟩

theorem mem_alternatives_ofProductions (start : String) {productions : List Production}
    {p : Production} (mem : p ∈ productions) :
    p.alternative (productions.map Production.left).contains ∈
      (ofProductions start productions).alternatives p.left := by
  rw [alternatives_ofProductions]
  exact List.mem_map_of_mem (List.mem_filter.mpr ⟨mem, by simp⟩)

/-- The terminals of a closed definition are the names without a production of their own. -/
theorem mem_terminalNames_ofProductions {start : String} {productions : List Production}
    {name : String} :
    name ∈ (ofProductions start productions).terminalNames ↔
      name ∈ productions.flatMap Production.right ∧ name ∉ productions.map Production.left := by
  rw [mem_terminalNames, List.mem_flatMap]
  constructor
  · intro h
    obtain ⟨left, alternative, own, occurs⟩ := h
    obtain ⟨p, mem, -, rfl⟩ := exists_production own
    obtain ⟨other, inside, eq⟩ := List.mem_map.mp occurs
    obtain ⟨rfl, absent⟩ := Symbol.classify_eq_terminal_iff.mp eq
    exact ⟨⟨p, mem, inside⟩, by simpa using absent⟩
  · intro h
    obtain ⟨⟨p, mem, inside⟩, absent⟩ := h
    refine ⟨p.left, _, mem_alternatives_ofProductions start mem, List.mem_map.mpr ⟨name, inside, ?_⟩⟩
    exact Symbol.classify_eq_terminal_iff.mpr ⟨rfl, by simpa using absent⟩

/-- A list without repeats is as long as the distinct names of any list with its members. -/
theorem length_eq_length_eraseDups {names others : List String} (nodup : names.Nodup)
    (same : ∀ name, name ∈ names ↔ name ∈ others) : names.length = others.eraseDups.length := by
  rw [← firstAppearances_eq_eraseDups]
  refine ((List.perm_ext_iff_of_nodup nodup (firstAppearances_nodup others)).mpr ?_).length_eq
  intro name
  rw [mem_firstAppearances, same]

theorem size_ofProductions (start : String) (productions : List Production) :
    (ofProductions start productions).table.size =
      (productions.map Production.left).eraseDups.length := by
  rw [← length_variableNames]
  refine length_eq_length_eraseDups (variableNames_nodup _) fun name => ?_
  rw [mem_variableNames, mem_table_ofProductions]

theorem length_terminalNames_ofProductions (start : String) (productions : List Production) :
    (ofProductions start productions).terminalNames.length =
      ((productions.flatMap Production.right).filter
        fun name => name ∉ productions.map Production.left).eraseDups.length := by
  refine length_eq_length_eraseDups (terminalNames_nodup _) fun name => ?_
  rw [mem_terminalNames_ofProductions, List.mem_filter, decide_eq_true_eq]

/-- Closing a definition of legal productions gives a grammar whose fields agree. -/
theorem WellFormed.of_build {start? : Option String} {productions : List Production}
    {g : Grammar} (h : build start? productions = .ok g)
    (legal : ∀ p ∈ productions, p.Legal) : g.WellFormed := by
  obtain ⟨start, -, rfl, start_mem, variables_le, terminals_le⟩ := build_eq_ok_iff.mp h
  have symbol_eq {left alternative symbol}
      (h : alternative ∈ (ofProductions start productions).alternatives left)
      (mem : symbol ∈ alternative) :
      symbol = .classify (productions.map Production.left).contains symbol.name ∧
        isLegalName symbol.name = true := by
    obtain ⟨p, hp, -, rfl⟩ := exists_production h
    obtain ⟨name, hn, rfl⟩ := List.mem_map.mp mem
    rw [Symbol.name_classify]
    exact ⟨rfl, legal p hp name (List.mem_cons_of_mem _ hn)⟩
  exact {
    start_mem, variables_le, terminals_le
    mem_order := mem_order_ofProductions
    order_nodup := firstAppearances_nodup _
    alternatives_ne_nil := by
      intro left mem
      obtain ⟨p, hp, rfl⟩ := List.mem_map.mp (mem_table_ofProductions.mp mem)
      exact List.ne_nil_of_mem (mem_alternatives_ofProductions start hp)
    variable_mem := by
      intro left alternative name h mem
      have eq := (symbol_eq h mem).1.symm
      have found := (Symbol.classify_eq_variable_iff.mp eq).2
      exact mem_table_ofProductions.mpr (List.contains_iff_mem.mp found)
    terminal_not_mem := by
      intro left alternative name h mem present
      have eq := (symbol_eq h mem).1.symm
      have absent := (Symbol.classify_eq_terminal_iff.mp eq).2
      rw [Symbol.name, List.contains_iff_mem.mpr (mem_table_ofProductions.mp present)] at absent
      cases absent
    legal_left := by
      intro left mem
      obtain ⟨p, hp, rfl⟩ := List.mem_map.mp (mem_table_ofProductions.mp mem)
      exact legal p hp _ List.mem_cons_self
    legal_symbol := fun h mem => (symbol_eq h mem).2 }

end Grammar

end GrammarFixpoint
