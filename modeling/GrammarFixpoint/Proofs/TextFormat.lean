import GrammarFixpoint.Proofs.LineFormat

/-! What a rule file denotes. Each line that is not blank is a rule, and the rules of all
lines together say which names are variables, so nothing about a name is known from its
own line. A text is read exactly where its lines are rules and neither class of symbols
has more than 65535 names, and then as the one grammar that its rules denote. -/

namespace GrammarFixpoint

open Text

/-- The lines of a text that are not blank. -/
def rows (text : String) : List (List Char) :=
  (lines text.toList).filter fun line => !line.all isBlank

/-- The rules stand in the text, one in each line that is not blank. -/
structure Reads (text : String) (rules : List WrittenRule) : Prop where
  ne_nil : rules ≠ []
  standIn : List.Forall₂ (fun row rule => rule.StandsIn row) (rows text) rules

/-- The names behind the separators that stand before none. -/
def others (rules : List WrittenRule) : List String :=
  (rules.flatMap fun rule => rule.alternatives.flatten).filter
    fun name => name ∉ rules.map WrittenRule.left

/-- Neither class has more symbols than can be numbered. -/
structure Fits (rules : List WrittenRule) : Prop where
  lefts : (rules.map WrittenRule.left).eraseDups.length ≤ 65535
  others : (others rules).eraseDups.length ≤ 65535

/-- The grammar is what the rules say, each about the names of all of them. -/
structure Grammar.Denotes (g : Grammar) (rules : List WrittenRule) : Prop where
  start : rules.head?.map WrittenRule.left = some g.start
  mem_variableNames : ∀ {name}, name ∈ g.variableNames ↔ name ∈ rules.map WrittenRule.left
  mem_terminalNames : ∀ {name}, name ∈ g.terminalNames ↔ name ∈ others rules
  /-- Those of all its lines in order, with repeats. -/
  alternatives : ∀ left, g.alternatives left =
    ((rules.filter (·.left == left)).flatMap WrittenRule.alternatives).map
      (List.map (Symbol.classify (rules.map WrittenRule.left).contains))
  order : g.order = (rules.map WrittenRule.left).eraseDups

variable {text : String} {rules : List WrittenRule} {g : Grammar}

theorem WrittenRule.StandsIn.alternatives_ne_nil {rule : WrittenRule} {line : List Char}
    (h : rule.StandsIn line) : rule.alternatives ≠ [] := by
  obtain ⟨_, _, after, _, _, _, spells⟩ := h.sides
  intro empty
  rw [empty, List.forall₂_nil_right_iff, List.map_eq_nil_iff] at spells
  exact List.splitOn_ne_nil '|' after spells

theorem alternatives_ne_nil {lines : List (List Char)}
    (stand : List.Forall₂ (fun row rule => rule.StandsIn row) lines rules) :
    ∀ rule ∈ rules, rule.alternatives ≠ [] := by
  have each := stand.imp fun _ _ own => And.intro own.alternatives_ne_nil own
  exact ((List.forall₂_and_left rules lines).mp each.flip).1

/-! Reading the lines. -/

/-- The lines that are read are the trimmed ones that are not blank. -/
theorem map_fst_numberedLines (text : String) :
    ((((lines text.toList).map trim).zipIdx 1).filter fun (line, _) => !line.isEmpty).map Prod.fst =
      (rows text).map trim := by
  calc ((((lines text.toList).map trim).zipIdx 1).filter fun (line, _) => !line.isEmpty).map Prod.fst
    _ = ((((lines text.toList).map trim).zipIdx 1).map Prod.fst).filter (!·.isEmpty) := by
      rw [List.filter_map]
      rfl
    _ = ((lines text.toList).filter fun line => !(trim line).isEmpty).map trim := by
      rw [List.zipIdx_map_fst, List.filter_map]
      rfl
    _ = (rows text).map trim := by simp only [isEmpty_trim, rows]

/-- A text is read where rules stand in its lines and their productions can be closed. -/
theorem ofText_eq_ok_iff :
    Grammar.ofText text = .ok g ↔
      ∃ rules : List WrittenRule,
        List.Forall₂ (fun row rule => rule.StandsIn row) (rows text) rules ∧
          Grammar.build none (rules.flatMap WrittenRule.productions) = .ok g := by
  have trimmed (rules : List WrittenRule) :
      List.Forall₂ (fun row rule => rule.StandsIn row) ((rows text).map trim) rules ↔
        List.Forall₂ (fun row rule => rule.StandsIn row) (rows text) rules := by
    rw [List.forall₂_map_left_iff]
    simp only [WrittenRule.standsIn_trim_iff]
  rw [Grammar.ofText, Grammar.ofNumberedLines_eq_ok_iff]
  simp only [RuleLine.mapM_productions_eq_ok_iff, map_fst_numberedLines, trimmed]
  constructor
  · rintro ⟨_, ⟨rules, stand, rfl⟩, close⟩
    exact ⟨rules, stand, close⟩
  · rintro ⟨rules, stand, close⟩
    exact ⟨_, ⟨rules, stand, rfl⟩, close⟩

/-! Closing the definition. -/

theorem flatMap_right (rules : List WrittenRule) :
    (rules.flatMap WrittenRule.productions).flatMap Production.right =
      rules.flatMap fun rule => rule.alternatives.flatten := by
  rw [List.flatMap_assoc]
  congr 1
  funext rule
  simp [WrittenRule.productions, List.flatMap_map, List.flatMap_id']

theorem filter_right (ne_nil : ∀ rule ∈ rules, rule.alternatives ≠ []) :
    ((rules.flatMap WrittenRule.productions).flatMap Production.right).filter
      (fun name => name ∉ (rules.flatMap WrittenRule.productions).map Production.left) =
        others rules := by
  rw [flatMap_right, others]
  simp only [WrittenRule.mem_lefts ne_nil]

theorem fits_iff (ne_nil : ∀ rule ∈ rules, rule.alternatives ≠ []) (start : String) :
    Fits rules ↔
      (Grammar.ofProductions start (rules.flatMap WrittenRule.productions)).table.size ≤
          Grammar.symbolLimit ∧
        (Grammar.ofProductions start
          (rules.flatMap WrittenRule.productions)).terminalNames.length ≤ Grammar.symbolLimit := by
  rw [Grammar.size_ofProductions, Grammar.length_terminalNames_ofProductions, filter_right ne_nil,
    ← firstAppearances_eq_eraseDups, WrittenRule.firstAppearances_lefts ne_nil,
    firstAppearances_eq_eraseDups]
  exact ⟨fun h => ⟨h.lefts, h.others⟩, fun h => ⟨h.1, h.2⟩⟩

namespace Grammar

theorem denotes_ofProductions (ne_nil : ∀ rule ∈ rules, rule.alternatives ≠ []) {start : String}
    (first : rules.head?.map WrittenRule.left = some start) :
    (ofProductions start (rules.flatMap WrittenRule.productions)).Denotes rules where
  start := first
  mem_variableNames := by
    intro name
    rw [mem_variableNames, mem_table_ofProductions, WrittenRule.mem_lefts ne_nil]
  mem_terminalNames := by
    intro name
    rw [mem_terminalNames_ofProductions, ← filter_right ne_nil, List.mem_filter, decide_eq_true_eq]
  alternatives := by
    intro left
    have same : ((rules.flatMap WrittenRule.productions).map Production.left).contains =
        (rules.map WrittenRule.left).contains := by
      funext name
      rw [Bool.eq_iff_iff, List.contains_iff_mem, List.contains_iff_mem,
        WrittenRule.mem_lefts ne_nil]
    rw [alternatives_ofProductions, WrittenRule.filter_left, same, List.map_flatMap,
      List.map_flatMap]
    congr 1
    funext rule
    simp [WrittenRule.productions, Production.alternative, Function.comp_def]
  order := by
    rw [order_ofProductions, ← firstAppearances_eq_eraseDups,
      WrittenRule.firstAppearances_lefts ne_nil, firstAppearances_eq_eraseDups]

theorem Denotes.mem_order (h : g.Denotes rules) {left : String} :
    left ∈ g.order ↔ left ∈ g.table := by
  rw [h.order, List.mem_eraseDups, ← Grammar.mem_variableNames, h.mem_variableNames]

/-- Rules denote one grammar. -/
theorem Denotes.unique {g' : Grammar} (h : g.Denotes rules) (h' : g'.Denotes rules) : g = g' := by
  refine eq_of_alternatives h.mem_order h'.mem_order ?_ (h.order.trans h'.order.symm) ?_
  · exact Option.some.inj (h.start.symm.trans h'.start)
  · intro left
    rw [h.alternatives, h'.alternatives]

theorem head?_lefts (ne_nil : ∀ rule ∈ rules, rule.alternatives ≠ []) :
    (rules.flatMap WrittenRule.productions).head?.map Production.left =
      rules.head?.map WrittenRule.left := by
  cases rules with
  | nil => rfl
  | cons rule rules =>
    obtain ⟨names, others, eq⟩ := List.exists_cons_of_ne_nil (ne_nil rule List.mem_cons_self)
    simp [WrittenRule.productions, eq]

/-- A definition made of rules can be closed where they fit, to the grammar they denote. -/
theorem build_rules_eq_ok_iff (ne_nil : ∀ rule ∈ rules, rule.alternatives ≠ []) :
    build none (rules.flatMap WrittenRule.productions) = .ok g ↔ Fits rules ∧ g.Denotes rules := by
  simp only [build_eq_ok_iff, head?_lefts ne_nil, Option.orElse_eq_orElse, Option.orElse_eq_or,
    Option.none_or]
  constructor
  · rintro ⟨start, first, rfl, -, few⟩
    exact ⟨(fits_iff ne_nil start).mpr few, denotes_ofProductions ne_nil first⟩
  · rintro ⟨fits, denotes⟩
    have eq := denotes.unique (denotes_ofProductions ne_nil denotes.start)
    refine ⟨g.start, denotes.start, eq, ?_, ?_⟩
    · rw [← mem_variableNames, denotes.mem_variableNames]
      obtain ⟨rule, first, same⟩ := Option.map_eq_some_iff.mp denotes.start
      exact same ▸ List.mem_map_of_mem (List.mem_of_head? first)
    · rw [eq]
      exact (fits_iff ne_nil g.start).mp fits

/-- A text is read exactly where rules stand in its lines and their symbols can be
numbered, and then as the grammar that these rules denote. -/
theorem ofText_iff_denotes (text : String) :
    ((∃ g, ofText text = .ok g) ↔ ∃ rules, Reads text rules ∧ Fits rules) ∧
      ∀ g, ofText text = .ok g ↔ ∃ rules, Reads text rules ∧ Fits rules ∧ g.Denotes rules := by
  have read (g : Grammar) :
      ofText text = .ok g ↔ ∃ rules, Reads text rules ∧ Fits rules ∧ g.Denotes rules := by
    rw [ofText_eq_ok_iff]
    constructor
    · rintro ⟨rules, stand, close⟩
      obtain ⟨fits, denotes⟩ := (build_rules_eq_ok_iff (alternatives_ne_nil stand)).mp close
      refine ⟨rules, ⟨?_, stand⟩, fits, denotes⟩
      rintro rfl
      cases denotes.start
    · rintro ⟨rules, reads, fits, denotes⟩
      exact ⟨rules, reads.standIn,
        (build_rules_eq_ok_iff (alternatives_ne_nil reads.standIn)).mpr ⟨fits, denotes⟩⟩
  refine ⟨⟨?_, ?_⟩, read⟩
  · rintro ⟨g, accepted⟩
    obtain ⟨rules, reads, fits, -⟩ := (read g).mp accepted
    exact ⟨rules, reads, fits⟩
  · rintro ⟨rules, reads, fits⟩
    obtain ⟨rule, others, eq⟩ := List.exists_cons_of_ne_nil reads.ne_nil
    have first : rules.head?.map WrittenRule.left = some rule.left := by
      rw [eq]
      rfl
    have denotes := denotes_ofProductions (alternatives_ne_nil reads.standIn) first
    exact ⟨_, (read _).mpr ⟨rules, reads, fits, denotes⟩⟩

end Grammar

end GrammarFixpoint
