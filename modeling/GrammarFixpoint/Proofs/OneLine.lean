import GrammarFixpoint.Proofs.Expansions
import GrammarFixpoint.Proofs.Worklists

/-! What is written down stays in its line. A line is ended by a line feed, so nothing
that is printed as one may hold a line feed of its own. Names hold no blank, and whatever
a step quotes is put together from names: its set from the names added so far, its
explanation from rules of the grammar. So the trace decides where the sets come from, and
only the explanations have to be followed through the three loops. -/

namespace GrammarFixpoint

/-- The text can be printed as one line. -/
def OneLine (text : String) : Prop := '\n' ∉ text.toList

instance (text : String) : Decidable (OneLine text) := inferInstanceAs (Decidable ('\n' ∉ _))

namespace OneLine

variable {text text' : String}

@[simp] theorem append_iff : OneLine (text ++ text') ↔ OneLine text ∧ OneLine text' := by
  simp [OneLine]

theorem intercalate {sep : String} {pieces : List String} (apart : OneLine sep)
    (own : ∀ piece ∈ pieces, OneLine piece) : OneLine (sep.intercalate pieces) := by
  intro mem
  rw [String.toList_intercalate] at mem
  rcases Text.mem_intercalate mem with mem | ⟨piece, listed, mem⟩
  · exact apart mem
  · obtain ⟨written, own_mem, rfl⟩ := List.mem_map.mp listed
    exact own written own_mem mem

theorem toString_nat (n : Nat) : OneLine (toString n) := by
  intro mem
  rw [Nat.toString_eq_ofList_toDigits, String.toList_ofList] at mem
  exact absurd (Nat.isDigit_of_mem_toDigits (by decide) (by decide) mem) (by decide)

theorem of_isWord (h : Text.IsWord text) : OneLine text :=
  fun mem => absurd (h.2 _ mem) (by decide)

theorem of_isLegalName (h : isLegalName text = true) : OneLine text :=
  of_isWord (isLegalName_iff.mp h).1

theorem setNotation {names : List String} (own : ∀ name ∈ names, OneLine name) :
    OneLine (setNotation names) := by
  unfold GrammarFixpoint.setNotation
  split
  · decide
  · simp only [append_iff]
    exact ⟨⟨by decide, intercalate (by decide) own⟩, by decide⟩

theorem numberedLabel {label : String} (own : OneLine label) (number : Nat) :
    OneLine (numberedLabel label number) := by
  simp only [GrammarFixpoint.numberedLabel, append_iff]
  exact ⟨⟨own, by decide⟩, toString_nat number⟩

theorem emptyLanguageMessage {start : String} (own : OneLine start) :
    OneLine (emptyLanguageMessage start) := by
  show OneLine ("the grammar generates no string: the start symbol `" ++ start ++
    "' is not terminating")
  rw [append_iff, append_iff]
  exact ⟨⟨by decide, own⟩, by decide⟩

end OneLine

theorem Alternative.Legal.oneLine {alternative : Alternative} (h : alternative.Legal) :
    OneLine alternative.text := by
  cases alternative with
  | nil => decide
  | cons symbol symbols =>
    refine OneLine.intercalate (by decide) ?_
    intro name mem
    obtain ⟨symbol, occurs, rfl⟩ := List.mem_map.mp mem
    exact .of_isLegalName (h symbol occurs)

namespace Grammar

/-! ## Rules -/

variable {g : Grammar}

theorem WellFormed.oneLine_variable (hg : g.WellFormed) {name : String} (mem : name ∈ g.table) :
    OneLine name :=
  .of_isLegalName (hg.legal_left mem)

theorem WellFormed.oneLine_terminal (hg : g.WellFormed) {name : String}
    (mem : name ∈ g.terminalNames) : OneLine name := by
  obtain ⟨left, alternative, own, occurs⟩ := mem_terminalNames.mp mem
  have legal := hg.legal_symbol own occurs
  rw [Symbol.name] at legal
  exact .of_isLegalName legal

theorem WellFormed.oneLine_production (hg : g.WellFormed) {left : String}
    {alternative : Alternative} (own : alternative ∈ g.alternatives left) :
    OneLine (productionText left alternative) := by
  simp only [productionText, OneLine.append_iff]
  exact ⟨⟨hg.oneLine_variable (mem_table_of_mem_alternatives own), by decide⟩,
    (hg.legal own).oneLine⟩

theorem WellFormed.oneLine_rule (hg : g.WellFormed) {left : String} (mem : left ∈ g.table) :
    OneLine (Rule.mk left (g.alternatives left)).text := by
  simp only [Rule.text, OneLine.append_iff]
  refine ⟨⟨hg.oneLine_variable mem, by decide⟩, .intercalate (by decide) ?_⟩
  rw [List.forall_mem_map]
  exact fun alternative own => (hg.legal own).oneLine

end Grammar

/-! ## Explanations -/

namespace Saturation

variable {c : Criterion}

/-- A license quotes a rule that the passes began with. -/
theorem exists_rule_of_license {limit : Nat} {admitted : NameSet} {rules : List Rule} {pass : Pass}
    (mem : pass ∈ passes c limit admitted rules) {license : License}
    (own : license ∈ pass.licenses) :
    ∃ rule ∈ rules, rule.left = license.left ∧ license.alternative ∈ rule.alternatives := by
  induction limit generalizing admitted rules with
  | zero => cases mem
  | succ limit ih =>
    by_cases idle : rules.filterMap (license? c admitted) = []
    · rw [passes_of_nil idle] at mem
      cases mem
    rw [passes_of_ne_nil idle] at mem
    rcases List.mem_cons.mp mem with rfl | later
    · obtain ⟨rule, listed, found⟩ := List.mem_filterMap.mp own
      obtain ⟨alternative, first, rfl⟩ := Option.map_eq_some_iff.mp found
      exact ⟨rule, listed, rfl, List.mem_of_find?_eq_some first⟩
    · obtain ⟨rule, listed, quoted⟩ := ih later
      exact ⟨rule, (List.mem_filter.mp listed).1, quoted⟩

theorem oneLine_describe (c : Criterion) (pass : Nat) : OneLine (c.describe pass) := by
  have label : OneLine c.phase.label := by cases c <;> decide
  have earlier : OneLine (numberedLabel c.phase.label (pass - 1)) := .numberedLabel label _
  cases c <;> simp only [Criterion.describe] <;> split
  case terminating.isTrue | nullable.isTrue => decide
  case terminating.isFalse | nullable.isFalse =>
    exact OneLine.append_iff.mpr ⟨by decide, earlier⟩

theorem oneLine_explain {pass : Nat} {licenses : List License}
    (own : ∀ license ∈ licenses, OneLine (productionText license.left license.alternative)) :
    OneLine (explain c pass licenses) := by
  unfold explain
  simp only [OneLine.append_iff]
  refine ⟨⟨oneLine_describe c pass, by decide⟩, ?_⟩
  split
  · decide
  · exact .intercalate (by decide) (List.forall_mem_map.mpr own)

end Saturation

namespace Reachability

variable {g : Grammar}

theorem oneLine_explain (hg : g.WellFormed) {expansion : Expansion}
    (mem : expansion.left ∈ g.table) : OneLine (explain g expansion) := by
  unfold explain
  split
  · simp only [OneLine.append_iff]
    exact ⟨⟨by decide, hg.oneLine_variable mem⟩, by decide⟩
  · exact OneLine.append_iff.mpr ⟨by decide, hg.oneLine_rule mem⟩

end Reachability

/-! ## Steps -/

theorem Step.oneLine_text {step : Step} (iteration : OneLine step.iteration)
    (admitted : OneLine step.admitted) (explanation : OneLine step.explanation)
    (added : ∀ name ∈ step.newVariables, OneLine name) : OneLine step.text := by
  unfold Step.text
  simp only [OneLine.append_iff]
  refine ⟨⟨⟨⟨⟨⟨iteration, by decide⟩, admitted⟩, by decide⟩, explanation⟩, by decide⟩, ?_⟩
  split
  · decide
  · simp only [OneLine.append_iff]
    exact ⟨⟨by decide, .intercalate (by decide) added⟩, by decide⟩

/-- What a step shows of a set whose growth it is part of, it took from the set. -/
theorem Audits.oneLine {phase : Phase} {label : String} {steps : Trace} {result : NameSet}
    (h : Audits phase label steps result) (label_own : OneLine label)
    (names : ∀ name ∈ result, OneLine name)
    (explained : ∀ step ∈ steps, OneLine step.explanation) :
    ∀ step ∈ steps, OneLine step.text := by
  have added : ∀ step ∈ steps, ∀ name ∈ step.newVariables, OneLine name := by
    intro step mem name new
    refine names name ?_
    rw [← h.union, Trace.admitted, NameSet.mem_ofList, List.mem_flatMap]
    exact ⟨step, mem, new⟩
  intro step mem
  refine Step.oneLine_text ?_ ?_ (explained step mem) (added step mem)
  · have own := List.mem_map_of_mem (f := Step.iteration) mem
    rw [h.labels] at own
    obtain ⟨number, -, eq⟩ := List.mem_map.mp own
    exact eq ▸ .numberedLabel label_own number
  · -- the set of a step holds what has been added up to it
    obtain ⟨index, at_index⟩ := List.mem_iff_getElem?.mp mem
    rw [h.snapshots index step at_index]
    refine .setNotation fun name reached => ?_
    rw [Std.ExtTreeSet.mem_toList, Trace.admitted, NameSet.mem_ofList, List.mem_flatMap] at reached
    obtain ⟨earlier, taken, new⟩ := reached
    exact added earlier (List.mem_of_mem_take taken) name new

theorem Trace.forall_explanation_ofGrowths {phase : Phase} {label : String} {growths : List Growth}
    {P : String → Prop} (h : ∀ growth ∈ growths, P growth.explanation) :
    ∀ step ∈ Trace.ofGrowths phase label growths, P step.explanation := by
  intro step mem
  obtain ⟨⟨growth, number⟩, listed, rfl⟩ := List.mem_map.mp mem
  exact h growth (List.fst_mem_of_mem_zipIdx listed)

namespace Grammar

variable {g : Grammar}

theorem WellFormed.oneLine_saturate (hg : g.WellFormed) (c : Criterion) :
    ∀ step ∈ (g.saturate c).trace, OneLine step.text := by
  refine (g.audits_saturate c).oneLine (by cases c <;> decide) ?_ ?_
  · exact fun name mem => hg.oneLine_variable (mem_table_of_mem_saturate mem)
  refine Trace.forall_explanation_ofGrowths ?_
  intro growth mem
  obtain ⟨⟨pass, number⟩, listed, rfl⟩ := List.mem_map.mp mem
  refine Saturation.oneLine_explain fun license own => ?_
  have shown : pass ∈ Saturation.shown (Saturation.run c g) := List.fst_mem_of_mem_zipIdx listed
  by_cases idle : Saturation.run c g = []
  · rw [idle, Saturation.shown, List.mem_singleton] at shown
    subst shown
    cases own
  · rw [Saturation.shown_of_ne_nil idle] at shown
    obtain ⟨rule, sorted, left, quoted⟩ := Saturation.exists_rule_of_license shown own
    obtain ⟨-, same, -⟩ := (Saturation.candidates_sortedRules rule).mp sorted
    exact hg.oneLine_production (left ▸ same ▸ quoted)

theorem WellFormed.oneLine_reachable (hg : g.WellFormed) :
    ∀ step ∈ g.reachable.trace, OneLine step.text := by
  refine g.audits_reachable.oneLine (by decide) ?_ ?_
  · exact fun name mem => hg.oneLine_variable (hg.closed.mem_table_of_mem_reachable mem)
  refine Trace.forall_explanation_ofGrowths (List.forall_mem_cons.mpr ⟨?_, ?_⟩)
  · show OneLine "start symbol"
    decide
  rw [List.forall_mem_map]
  intro expansion mem
  have reached := (hg.closed.mem_expanded_iff expansion.left).mp (List.mem_map_of_mem mem)
  exact Reachability.oneLine_explain hg (hg.closed.mem_table_of_mem_reachable reached)

theorem WellFormed.oneLine_unitClosure (hg : g.WellFormed) {origin : String}
    (known : origin ∈ g.table) : ∀ step ∈ (g.unitClosure origin).trace, OneLine step.text := by
  have name := hg.oneLine_variable known
  refine (g.audits_unitClosure origin).oneLine ?_ ?_ ?_
  · simp only [UnitClosure.label, OneLine.append_iff]
    exact ⟨⟨⟨by decide, by decide⟩, name⟩, by decide⟩
  · exact fun name mem => hg.oneLine_variable (hg.mem_table_of_mem_unitClosure known mem)
  refine Trace.forall_explanation_ofGrowths (List.forall_mem_cons.mpr ⟨?_, ?_⟩)
  · simp only [UnitClosure.begin, OneLine.append_iff]
    exact ⟨⟨⟨by decide, name⟩, by decide⟩, name⟩
  · rw [List.forall_mem_map]
    intro link mem
    exact OneLine.append_iff.mpr
      ⟨by decide, hg.oneLine_production ((g.grows_unitClosure origin).unit_mem mem)⟩

theorem WellFormed.oneLine_unitClosures (hg : g.WellFormed) :
    ∀ step ∈ g.unitClosures.trace, OneLine step.text := by
  intro step mem
  obtain ⟨⟨origin, closure⟩, listed, own⟩ := List.mem_flatMap.mp mem
  obtain ⟨origin, known, eq⟩ := List.mem_map.mp listed
  cases eq
  exact hg.oneLine_unitClosure (mem_variableNames.mp known) step own

theorem WellFormed.oneLine_transition (hg : g.WellFormed) (set : NameSet)
    (known : ∀ name ∈ set, name ∈ g.table) : OneLine (g.transition set).text := by
  refine Step.oneLine_text (by simp [transition]; decide) ?_ ?_ (by simp [transition])
  · exact .setNotation fun name mem =>
      hg.oneLine_variable (known name (Std.ExtTreeSet.mem_toList.mp mem))
  · unfold transition
    simp only
    split
    · decide
    · next removed eq =>
      refine OneLine.append_iff.mpr ⟨by decide, .setNotation fun name mem => ?_⟩
      exact hg.oneLine_variable (mem_variableNames.mp (List.mem_filter.mp mem).1)

theorem WellFormed.oneLine_eliminateUseless (hg : g.WellFormed) {result : Traced Grammar}
    (reduce : g.eliminateUseless = .ok result) : ∀ step ∈ result.trace, OneLine step.text := by
  obtain ⟨productive, start, cut, -, trace⟩ := exists_stages reduce
  have first := (supports_terminating start).restricted hg cut
  rw [trace]
  refine List.forall_mem_append.mpr ⟨hg.oneLine_saturate .terminating, ?_⟩
  refine List.forall_mem_cons.mpr ⟨?_, first.wellFormed.oneLine_reachable⟩
  exact hg.oneLine_transition _ fun _ => mem_table_of_mem_saturate

/-- Every step that is shown is shown in one line. -/
theorem WellFormed.oneLine_steps (hg : g.WellFormed) {algorithm : Algorithm} {outcome : Outcome}
    (h : g.outcome algorithm = .ok outcome) : ∀ step ∈ outcome.steps, OneLine step.text := by
  cases algorithm with
  | terminating =>
    cases h
    exact hg.oneLine_saturate .terminating
  | nullable =>
    cases h
    exact hg.oneLine_saturate .nullable
  | reachable =>
    cases h
    exact hg.oneLine_reachable
  | unit =>
    cases h
    exact hg.oneLine_unitClosures
  | useless =>
    obtain ⟨result, reduce, rfl⟩ := outcome_useless h
    exact hg.oneLine_eliminateUseless reduce

end Grammar

end GrammarFixpoint
