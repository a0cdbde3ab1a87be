import GrammarFixpoint.Proofs.WellFormed

/-! Grammars from whole rules. A definition takes productions one at a time, but
printing and restricting hand a grammar over rule by rule. Where the rules name
every variable once, leave none without an alternative and have their symbols in
the classes that their own left-hand sides give, closing the definition gives
back exactly these rules: their order, and the order and number of the
alternatives in each. -/

namespace GrammarFixpoint

/-- A rule as it is written, before it is known which names are variables. -/
structure WrittenRule where
  left : String
  alternatives : List (List String)
  deriving DecidableEq

namespace WrittenRule

/-- A production for each alternative. -/
def productions (rule : WrittenRule) : List Production :=
  rule.alternatives.map fun names => ⟨rule.left, names⟩

variable {rule : WrittenRule} {rules : List WrittenRule}

theorem left_of_mem_productions {p : Production} (h : p ∈ rule.productions) :
    p.left = rule.left := by
  obtain ⟨_, _, rfl⟩ := List.mem_map.mp h
  rfl

/-- Productions of one variable are those of a rule. -/
theorem productions_map_right {left : String} {ps : List Production}
    (h : ∀ p ∈ ps, p.left = left) : productions ⟨left, ps.map Production.right⟩ = ps := by
  rw [productions, List.map_map]
  refine (List.map_congr_left ?_).trans (List.map_id ps)
  intro p mem
  rw [Function.comp_apply, ← h p mem]
  rfl

/-- The productions of a rule all name its variable, so it appears where the rule stands. -/
theorem firstAppearances_lefts (ne_nil : ∀ rule ∈ rules, rule.alternatives ≠ []) :
    firstAppearances ((rules.flatMap productions).map Production.left) =
      firstAppearances (rules.map left) := by
  rw [List.map_flatMap]
  apply firstAppearances_flatMap
  intro rule mem
  constructor
  · simp [productions, ne_nil rule mem]
  · intro name mem
    obtain ⟨p, own, rfl⟩ := List.mem_map.mp mem
    exact left_of_mem_productions own

theorem mem_lefts (ne_nil : ∀ rule ∈ rules, rule.alternatives ≠ []) {left : String} :
    left ∈ (rules.flatMap productions).map Production.left ↔ left ∈ rules.map WrittenRule.left := by
  rw [← mem_firstAppearances, firstAppearances_lefts ne_nil, mem_firstAppearances]

/-- The productions with a left-hand side are those of the rules that have it, in order. -/
theorem filter_left (rules : List WrittenRule) (left : String) :
    (rules.flatMap productions).filter (·.left == left) =
      (rules.filter (·.left == left)).flatMap productions := by
  induction rules with
  | nil => rfl
  | cons rule rules ih =>
    rw [List.flatMap_cons, List.filter_append, ih, List.filter_cons]
    split
    · next same =>
      have own : rule.productions.filter (·.left == left) = rule.productions :=
        List.filter_eq_self.mpr fun p mem => by rwa [left_of_mem_productions mem]
      rw [own, List.flatMap_cons]
    · next other =>
      have foreign : rule.productions.filter (·.left == left) = [] :=
        List.filter_eq_nil_iff.mpr fun p mem => by rwa [left_of_mem_productions mem]
      rw [foreign, List.nil_append]

end WrittenRule

/-- How the rule is written. -/
def Rule.written (rule : Rule) : WrittenRule :=
  ⟨rule.left, rule.alternatives.map (List.map Symbol.name)⟩

/-- A production for each alternative. -/
def Rule.productions (rule : Rule) : List Production :=
  rule.alternatives.map fun alternative => ⟨rule.left, alternative.map Symbol.name⟩

theorem Rule.productions_written (rule : Rule) : rule.written.productions = rule.productions := by
  simp [WrittenRule.productions, Rule.productions, Rule.written, Function.comp_def]

theorem Rule.mem_productions {rule : Rule} {p : Production} :
    p ∈ rule.productions ↔
      p.left = rule.left ∧ ∃ alternative ∈ rule.alternatives,
        p.right = alternative.map Symbol.name := by
  obtain ⟨left, right⟩ := p
  simp only [productions, List.mem_map, Production.mk.injEq]
  constructor
  · rintro ⟨alternative, mem, rfl, rfl⟩
    exact ⟨rfl, alternative, mem, rfl⟩
  · rintro ⟨rfl, alternative, mem, rfl⟩
    exact ⟨alternative, mem, rfl, rfl⟩

/-- Rules that a grammar can have as they stand. -/
structure Regular (rules : List Rule) : Prop where
  lefts_nodup : (rules.map Rule.left).Nodup
  alternatives_ne_nil : ∀ rule ∈ rules, rule.alternatives ≠ []
  variable_mem : ∀ rule ∈ rules, ∀ alternative ∈ rule.alternatives, ∀ {name},
    Symbol.variable name ∈ alternative → name ∈ rules.map Rule.left
  terminal_not_mem : ∀ rule ∈ rules, ∀ alternative ∈ rule.alternatives, ∀ {name},
    Symbol.terminal name ∈ alternative → name ∉ rules.map Rule.left

section Rules

variable {rules : List Rule}

theorem flatMap_written (rules : List Rule) :
    (rules.map Rule.written).flatMap WrittenRule.productions = rules.flatMap Rule.productions := by
  rw [List.flatMap_map]
  simp only [Rule.productions_written]

theorem map_left_written (rules : List Rule) :
    (rules.map Rule.written).map WrittenRule.left = rules.map Rule.left := by
  simp [Rule.written, Function.comp_def]

theorem written_ne_nil (ne_nil : ∀ rule ∈ rules, rule.alternatives ≠ []) :
    ∀ rule ∈ rules.map Rule.written, rule.alternatives ≠ [] := by
  rw [List.forall_mem_map]
  intro rule mem
  simp [Rule.written, ne_nil rule mem]

theorem mem_lefts (ne_nil : ∀ rule ∈ rules, rule.alternatives ≠ []) {left : String} :
    left ∈ (rules.flatMap Rule.productions).map Production.left ↔ left ∈ rules.map Rule.left := by
  rw [← flatMap_written, WrittenRule.mem_lefts (written_ne_nil ne_nil), map_left_written]

theorem firstAppearances_of_nodup {names : List String} (nodup : names.Nodup) :
    firstAppearances names = names := by
  rw [firstAppearances_eq_eraseDups]
  induction names with
  | nil => rfl
  | cons name names ih =>
    obtain ⟨fresh, nodup⟩ := List.nodup_cons.mp nodup
    have others : names.filter (fun other => !other == name) = names := by
      apply List.filter_eq_self.mpr
      intro other mem
      simpa using ne_of_mem_of_not_mem mem fresh
    rw [List.eraseDups_cons, others, ih nodup]

/-- Rules with variables of their own appear as they stand. -/
theorem firstAppearances_lefts (nodup : (rules.map Rule.left).Nodup)
    (ne_nil : ∀ rule ∈ rules, rule.alternatives ≠ []) :
    firstAppearances ((rules.flatMap Rule.productions).map Production.left) =
      rules.map Rule.left := by
  rw [← flatMap_written, WrittenRule.firstAppearances_lefts (written_ne_nil ne_nil),
    map_left_written, firstAppearances_of_nodup nodup]

theorem filter_left_eq_singleton (nodup : (rules.map Rule.left).Nodup) {rule : Rule}
    (mem : rule ∈ rules) : rules.filter (·.left == rule.left) = [rule] := by
  obtain ⟨before, after, rfl⟩ := List.append_of_mem mem
  rw [List.map_append, List.map_cons, List.nodup_append, List.nodup_cons] at nodup
  obtain ⟨-, ⟨fresh, -⟩, apart⟩ := nodup
  have none_before : before.filter (·.left == rule.left) = [] := by
    apply List.filter_eq_nil_iff.mpr
    intro other mem same
    exact apart other.left (List.mem_map_of_mem mem) rule.left List.mem_cons_self
      (beq_iff_eq.mp same)
  have none_after : after.filter (·.left == rule.left) = [] := by
    apply List.filter_eq_nil_iff.mpr
    intro other mem same
    exact fresh (beq_iff_eq.mp same ▸ List.mem_map_of_mem mem)
  rw [List.filter_append, none_before, List.nil_append, List.filter_cons, none_after, beq_self_eq_true,
    if_pos rfl]

/-- Of all productions, those with the left-hand side of a rule are the rule's own. -/
theorem filter_left (nodup : (rules.map Rule.left).Nodup) {rule : Rule} (mem : rule ∈ rules) :
    (rules.flatMap Rule.productions).filter (·.left == rule.left) = rule.productions := by
  have own : (rules.map Rule.written).filter (·.left == rule.left) = [rule].map Rule.written := by
    rw [List.filter_map, ← filter_left_eq_singleton nodup mem]
    rfl
  rw [← flatMap_written, WrittenRule.filter_left, own, flatMap_written, List.flatMap_singleton]

end Rules

/-- A symbol of the right class is found again by its name. -/
theorem classify_name {isVariable : String → Bool} {symbol : Symbol}
    (variable_mem : ∀ name, symbol = .variable name → isVariable name = true)
    (terminal_not_mem : ∀ name, symbol = .terminal name → isVariable name = false) :
    Symbol.classify isVariable symbol.name = symbol := by
  rcases symbol with name | name
  · simp [Symbol.classify, Symbol.name, terminal_not_mem]
  · simp [Symbol.classify, Symbol.name, variable_mem]

namespace Grammar

variable {rules : List Rule} (start : String)

theorem alternatives_ofRules (regular : Regular rules) {rule : Rule} (mem : rule ∈ rules) :
    (ofProductions start (rules.flatMap Rule.productions)).alternatives rule.left =
      rule.alternatives := by
  rw [alternatives_ofProductions, filter_left regular.lefts_nodup mem, Rule.productions,
    List.map_map]
  refine (List.map_congr_left ?_).trans (List.map_id rule.alternatives)
  intro alternative own
  rw [Function.comp_apply, Production.alternative, List.map_map, id_eq]
  refine (List.map_congr_left ?_).trans (List.map_id alternative)
  intro symbol occurs
  apply classify_name
  · rintro name rfl
    rw [List.contains_iff_mem, mem_lefts regular.alternatives_ne_nil]
    exact regular.variable_mem rule mem alternative own occurs
  · rintro name rfl
    apply Bool.eq_false_iff.mpr
    rw [ne_eq, List.contains_iff_mem, mem_lefts regular.alternatives_ne_nil]
    exact regular.terminal_not_mem rule mem alternative own occurs

/-- Regular rules are the rules of the grammar that their productions add up to. -/
theorem rules_ofRules (regular : Regular rules) :
    (ofProductions start (rules.flatMap Rule.productions)).rules = rules := by
  have order : (ofProductions start (rules.flatMap Rule.productions)).order =
      rules.map Rule.left := by
    rw [order_ofProductions, ← firstAppearances_eq_eraseDups,
      firstAppearances_lefts regular.lefts_nodup regular.alternatives_ne_nil]
  rw [Grammar.rules, order, List.map_map]
  refine (List.map_congr_left ?_).trans (List.map_id rules)
  intro rule mem
  rw [Function.comp_apply, alternatives_ofRules start regular mem, id_eq]

variable {start}

theorem mem_rules {g : Grammar} {rule : Rule} :
    rule ∈ g.rules ↔ rule.left ∈ g.order ∧ rule.alternatives = g.alternatives rule.left := by
  obtain ⟨left, alternatives⟩ := rule
  simp only [Grammar.rules, List.mem_map, Rule.mk.injEq]
  constructor
  · rintro ⟨_, mem, rfl, rfl⟩
    exact ⟨mem, rfl⟩
  · rintro ⟨mem, rfl⟩
    exact ⟨left, mem, rfl, rfl⟩

theorem map_left_rules (g : Grammar) : g.rules.map Rule.left = g.order := by
  rw [Grammar.rules, List.map_map]
  exact List.map_id g.order

theorem WellFormed.regular {g : Grammar} (hg : g.WellFormed) : Regular g.rules where
  lefts_nodup := by
    rw [map_left_rules]
    exact hg.order_nodup
  alternatives_ne_nil := by
    intro rule mem
    obtain ⟨mem, eq⟩ := mem_rules.mp mem
    rw [eq]
    exact hg.alternatives_ne_nil (hg.mem_order.mp mem)
  variable_mem := by
    intro rule mem alternative own name occurs
    rw [(mem_rules.mp mem).2] at own
    rw [map_left_rules, hg.mem_order]
    exact hg.variable_mem own occurs
  terminal_not_mem := by
    intro rule mem alternative own name occurs
    rw [(mem_rules.mp mem).2] at own
    rw [map_left_rules, hg.mem_order]
    exact hg.terminal_not_mem own occurs

/-- A grammar is determined by its start symbol and its rules. -/
theorem eq_of_rules {g h : Grammar} (hg : ∀ {left}, left ∈ g.order ↔ left ∈ g.table)
    (hh : ∀ {left}, left ∈ h.order ↔ left ∈ h.table) (start : g.start = h.start)
    (rules : g.rules = h.rules) : g = h := by
  have order : g.order = h.order := by rw [← map_left_rules, rules, map_left_rules]
  apply eq_of_alternatives hg hh start order
  intro left
  by_cases mem : left ∈ g.order
  · have own : Rule.mk left (g.alternatives left) ∈ h.rules :=
      rules ▸ mem_rules.mpr ⟨mem, rfl⟩
    exact (mem_rules.mp own).2
  · have absent : left ∉ h.table := by rwa [← hh, ← order]
    rw [hg] at mem
    rw [alternatives, alternatives, Std.ExtTreeMap.getD_eq_fallback mem,
      Std.ExtTreeMap.getD_eq_fallback absent]

/-- A grammar is what the productions of its own rules add up to. -/
theorem WellFormed.ofProductions_rules {g : Grammar} (hg : g.WellFormed) :
    ofProductions g.start (g.rules.flatMap Rule.productions) = g :=
  eq_of_rules mem_order_ofProductions hg.mem_order rfl (rules_ofRules g.start hg.regular)

end Grammar

end GrammarFixpoint
