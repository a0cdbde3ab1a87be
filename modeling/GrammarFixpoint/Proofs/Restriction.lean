import GrammarFixpoint.Proofs.Built
import GrammarFixpoint.Proofs.Rules
import GrammarFixpoint.Proofs.Saturation
import GrammarFixpoint.Reduction

/-! Grammars cut down to a set of variables. The grammar is built anew from names,
and a variable left without alternatives would come back as a terminal. Where the
set supports itself, that is where each of its variables has an alternative over
the set, this cannot happen: the rules that remain are regular, building them
cannot fail, and they stand in the new grammar just as they stood in the old one.
Derivations that keep to the set are then the same in both grammars. -/

namespace GrammarFixpoint

namespace Grammar

/-- Whether the variables of an alternative are all kept. -/
def within (keep : NameSet) (alternative : Alternative) : Bool :=
  alternative.variableNames.all keep.contains

/-- The rules of the kept variables without the alternatives that leave the set. -/
def keptRules (g : Grammar) (keep : NameSet) : List Rule :=
  (g.rules.filter fun rule => keep.contains rule.left).map fun rule =>
    ⟨rule.left, rule.alternatives.filter (within keep)⟩

/-- Every kept variable keeps an alternative, the start symbol among them. -/
structure Supports (g : Grammar) (keep : NameSet) : Prop where
  start_mem : g.start ∈ keep
  exists_within : ∀ {left}, left ∈ keep →
    ∃ alternative ∈ g.alternatives left, within keep alternative = true

/-- The second grammar is what the set keeps of the first. -/
structure Restricted (g r : Grammar) (keep : NameSet) : Prop where
  wellFormed : r.WellFormed
  start : r.start = g.start
  rules : r.rules = g.keptRules keep

variable {g r : Grammar} {keep : NameSet} {left : String}

theorem within_iff {alternative : Alternative} :
    within keep alternative = true ↔ ∀ {name}, Symbol.variable name ∈ alternative → name ∈ keep := by
  simp [within]

theorem productionsOver_eq (g : Grammar) (keep : NameSet) :
    g.productionsOver keep = (g.keptRules keep).flatMap Rule.productions := by
  rw [productionsOver, keptRules, List.flatMap_map]
  rfl

theorem lefts_keptRules (g : Grammar) (keep : NameSet) :
    (g.keptRules keep).map Rule.left = g.order.filter keep.contains := by
  rw [keptRules, List.map_map, ← map_left_rules g, List.filter_map]
  rfl

theorem Supports.mem_table (supports : g.Supports keep) (mem : left ∈ keep) : left ∈ g.table := by
  obtain ⟨alternative, own, -⟩ := supports.exists_within mem
  exact mem_table_of_mem_alternatives own

theorem Supports.mem_lefts_iff (hg : g.WellFormed) (supports : g.Supports keep) :
    left ∈ (g.keptRules keep).map Rule.left ↔ left ∈ keep := by
  rw [lefts_keptRules, List.mem_filter, hg.mem_order, Std.ExtTreeSet.contains_iff_mem]
  exact ⟨And.right, fun mem => ⟨supports.mem_table mem, mem⟩⟩

theorem mem_keptRules {rule : Rule} :
    rule ∈ g.keptRules keep ↔ rule.left ∈ g.order ∧ rule.left ∈ keep ∧
      rule.alternatives = (g.alternatives rule.left).filter (within keep) := by
  obtain ⟨left, alternatives⟩ := rule
  simp only [keptRules, List.mem_map, List.mem_filter, mem_rules, Rule.mk.injEq,
    Std.ExtTreeSet.contains_iff_mem]
  constructor
  · intro h
    obtain ⟨rule, ⟨⟨mem, own⟩, kept⟩, rfl, rfl⟩ := h
    exact ⟨mem, kept, by rw [own]⟩
  · intro h
    obtain ⟨mem, kept, rfl⟩ := h
    exact ⟨⟨left, g.alternatives left⟩, ⟨⟨mem, rfl⟩, kept⟩, rfl, rfl⟩

theorem Supports.regular (hg : g.WellFormed) (supports : g.Supports keep) :
    Regular (g.keptRules keep) where
  lefts_nodup := by
    rw [lefts_keptRules]
    exact hg.order_nodup.filter _
  alternatives_ne_nil := by
    intro rule mem
    obtain ⟨-, kept, own⟩ := mem_keptRules.mp mem
    obtain ⟨alternative, mem, inside⟩ := supports.exists_within kept
    rw [own]
    exact List.ne_nil_of_mem (List.mem_filter.mpr ⟨mem, inside⟩)
  variable_mem := by
    intro rule mem alternative own name occurs
    rw [(mem_keptRules.mp mem).2.2, List.mem_filter] at own
    rw [supports.mem_lefts_iff hg]
    exact within_iff.mp own.2 occurs
  terminal_not_mem := by
    intro rule mem alternative own name occurs
    rw [(mem_keptRules.mp mem).2.2, List.mem_filter] at own
    rw [supports.mem_lefts_iff hg]
    exact fun kept => hg.terminal_not_mem own.1 occurs (supports.mem_table kept)

theorem Restricted.order_eq (h : Restricted g r keep) :
    r.order = g.order.filter keep.contains := by
  rw [← map_left_rules, h.rules, lefts_keptRules]

theorem Restricted.mem_table_iff (h : Restricted g r keep) :
    left ∈ r.table ↔ left ∈ g.order ∧ left ∈ keep := by
  rw [← h.wellFormed.mem_order, h.order_eq, List.mem_filter, Std.ExtTreeSet.contains_iff_mem]

/-- Kept variables have their old alternatives, less those that leave the set. -/
theorem Restricted.alternatives_eq (h : Restricted g r keep) (mem : left ∈ r.table) :
    r.alternatives left = (g.alternatives left).filter (within keep) := by
  have own : Rule.mk left (r.alternatives left) ∈ g.keptRules keep := by
    rw [← h.rules, mem_rules, h.wellFormed.mem_order]
    exact ⟨mem, rfl⟩
  exact (mem_keptRules.mp own).2.2

theorem Restricted.mem_alternatives_iff (h : Restricted g r keep) {alternative : Alternative} :
    alternative ∈ r.alternatives left ↔
      left ∈ r.table ∧ alternative ∈ g.alternatives left ∧ within keep alternative = true := by
  constructor
  · intro own
    have mem := mem_table_of_mem_alternatives own
    rw [h.alternatives_eq mem, List.mem_filter] at own
    exact ⟨mem, own⟩
  · intro own
    rw [h.alternatives_eq own.1, List.mem_filter]
    exact own.2

/-- Names of a closed definition of kept rules are names of the grammar it came from. -/
theorem legal_keptRules (hg : g.WellFormed) :
    ∀ p ∈ (g.keptRules keep).flatMap Rule.productions, p.Legal := by
  intro p mem
  obtain ⟨rule, kept, mem⟩ := List.mem_flatMap.mp mem
  obtain ⟨same, alternative, own, right⟩ := Rule.mem_productions.mp mem
  obtain ⟨known, -, eq⟩ := mem_keptRules.mp kept
  rw [eq, List.mem_filter] at own
  intro name mem
  rw [same, right] at mem
  rcases List.mem_cons.mp mem with rfl | mem
  · exact hg.legal_left (hg.mem_order.mp known)
  · obtain ⟨symbol, occurs, rfl⟩ := List.mem_map.mp mem
    exact hg.legal_symbol own.1 occurs

/-- The names of a grammar pass their checks again. -/
theorem WellFormed.restrict_eq (hg : g.WellFormed) (keep : NameSet) :
    g.restrict keep = build (some g.start) ((g.keptRules keep).flatMap Rule.productions) := by
  rw [restrict, productionsOver_eq]
  exact ofDeclarations_of_legal (legal_keptRules hg) g.start

/-- Restricting a grammar to a set that supports itself does not fail. -/
theorem Supports.restrict_eq_ok (hg : g.WellFormed) (supports : g.Supports keep) :
    ∃ r, g.restrict keep = .ok r ∧ Restricted g r keep := by
  have regular := supports.regular hg
  have rules := rules_ofRules g.start regular
  have kept {left : String} : left ∈ (ofProductions g.start
      ((g.keptRules keep).flatMap Rule.productions)).table ↔ left ∈ keep := by
    rw [mem_table_ofProductions, mem_lefts regular.alternatives_ne_nil,
      supports.mem_lefts_iff hg]
  have old {left : String} {alternative : Alternative} (own : alternative ∈ (ofProductions g.start
      ((g.keptRules keep).flatMap Rule.productions)).alternatives left) :
      alternative ∈ g.alternatives left := by
    obtain ⟨rule, mem, rfl⟩ := List.mem_map.mp
      ((supports.mem_lefts_iff hg).mpr (kept.mp (mem_table_of_mem_alternatives own)))
    rw [alternatives_ofRules g.start regular mem, (mem_keptRules.mp mem).2.2] at own
    exact (List.mem_filter.mp own).1
  have build : g.restrict keep = .ok (ofProductions g.start
      ((g.keptRules keep).flatMap Rule.productions)) := by
    rw [hg.restrict_eq, build_eq_ok_iff]
    refine ⟨g.start, rfl, rfl, kept.mpr supports.start_mem, ?_, ?_⟩
    · refine Nat.le_trans (size_le_of_subset ?_) hg.variables_le
      intro left mem
      exact supports.mem_table (kept.mp mem)
    · refine Nat.le_trans (length_terminalNames_le_of_subset ?_) hg.terminals_le
      intro left alternative own
      exact old own
  refine ⟨_, build, ?_, rfl, rules⟩
  rw [hg.restrict_eq] at build
  exact .of_build build (legal_keptRules hg)

theorem Supports.restricted (hg : g.WellFormed) (supports : g.Supports keep)
    (h : g.restrict keep = .ok r) : Restricted g r keep := by
  obtain ⟨r', eq, cut⟩ := supports.restrict_eq_ok hg
  rw [h, Except.ok.injEq] at eq
  exact eq ▸ cut

/-! ## Derivations -/

theorem Restricted.derives (h : Restricted g r keep) {form last : List Symbol}
    (steps : r.Derives form last) : g.Derives form last := by
  induction steps with
  | refl => exact .refl _
  | head step _ ih =>
    obtain ⟨before, after, own⟩ := step
    exact .head (.replace before after (h.mem_alternatives_iff.mp own).2.1) ih

/-- Only kept variables stand in the form. -/
def Kept (keep : NameSet) (form : List Symbol) : Prop :=
  ∀ name, Symbol.variable name ∈ form → name ∈ keep

/-- A form can be completed to a string where each of its variables can. -/
theorem completes_iff_kept {form : List Symbol} :
    g.Completes form ↔ Kept g.terminating.value form := by
  constructor
  · intro completed name mem
    obtain ⟨word, steps⟩ := completed
    exact mem_saturate_iff_grounded.mpr (steps.exists_grounded (c := .terminating) trivial _ mem)
  · intro kept
    have parts : ∀ symbol ∈ form, ∃ height, g.Grounded .terminating height symbol := by
      intro symbol mem
      rcases symbol with name | name
      · exact ⟨0, rfl⟩
      · exact mem_saturate_iff_grounded.mp (kept name mem)
    obtain ⟨word, -, steps⟩ := exists_word_of_grounded parts
    exact ⟨word, steps⟩

/-- A step between forms of kept variables. -/
theorem Restricted.produces (hg : g.WellFormed) (h : Restricted g r keep) {form next : List Symbol}
    (step : g.Produces form next) (kept : Kept keep form) (kept' : Kept keep next) :
    r.Produces form next := by
  obtain @⟨before, after, left, alternative, own⟩ := step
  have known := hg.mem_order.mpr (mem_table_of_mem_alternatives own)
  refine .replace before after (h.mem_alternatives_iff.mpr ⟨?_, own, ?_⟩)
  · exact h.mem_table_iff.mpr ⟨known, kept left (by simp)⟩
  · exact within_iff.mpr fun {name} occurs => kept' name (by simp [occurs])

/-- A derivation cannot leave a set that is closed under the rules. -/
theorem Restricted.derives_of_closed (hg : g.WellFormed) (h : Restricted g r keep)
    (closed : ∀ {left}, left ∈ keep → ∀ alternative ∈ g.alternatives left, Kept keep alternative)
    {form last : List Symbol} (steps : g.Derives form last) (kept : Kept keep form) :
    r.Derives form last := by
  induction steps with
  | refl => exact .refl _
  | @head form next last step _ ih =>
    have kept' : Kept keep next := by
      obtain @⟨before, after, left, alternative, own⟩ := step
      intro name mem
      rcases List.mem_append.mp mem with mem | mem
      · exact kept name (by simp [mem])
      rcases List.mem_append.mp mem with mem | mem
      · exact closed (kept left (by simp)) alternative own name mem
      · exact kept name (by simp [mem])
    exact .head (h.produces hg step kept kept') (ih kept')

/-- A derivation that can be completed to a string keeps to the variables that
derive one. -/
theorem Restricted.derives_of_completed (hg : g.WellFormed)
    (h : Restricted g r g.terminating.value) {form last : List Symbol}
    (steps : g.Derives form last) (completed : g.Completes last) : r.Derives form last := by
  induction steps with
  | refl => exact .refl _
  | head step rest ih =>
    have later := completed.trans rest
    have kept := completes_iff_kept.mp (later.head step)
    exact .head (h.produces hg step kept (completes_iff_kept.mp later)) (ih completed)

end Grammar

end GrammarFixpoint
