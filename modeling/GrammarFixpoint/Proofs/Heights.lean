import GrammarFixpoint.Proofs.Audit
import GrammarFixpoint.Proofs.Printing

/-! The steps of a saturation by height. A pass looks only at what earlier passes
admitted, so it cannot run ahead of the trees: the variables it admits are those whose
lowest tree has just its number for a height, and the alternative it quotes is the first
over lower trees. Were a variable used in the pass that finds it, the sets would come out
the same but the steps would not. Each pass takes variables from those that are left, so
the loop ends of itself, after no more steps than there are variables. -/

namespace GrammarFixpoint

namespace Grammar

/-- The height of the lowest tree over a variable whose leaves the criterion counts. -/
def LeastHeight (g : Grammar) (c : Criterion) (left : String) (height : Nat) : Prop :=
  (∃ tree : g.Tree (.variable left), c.Accepts tree.word ∧ tree.height = height) ∧
    ∀ tree : g.Tree (.variable left), c.Accepts tree.word → height ≤ tree.height

/-- A terminal that the criterion counts, or a variable with a lower tree. -/
def Lower (g : Grammar) (c : Criterion) (height : Nat) : Symbol → Prop
  | .terminal _ => c.admitsTerminals = true
  | .variable name => ∃ lower < height, g.LeastHeight c name lower

/-- Of the alternatives of a variable in written order, the first whose symbols are all
lower. -/
def FirstLower (g : Grammar) (c : Criterion) (height : Nat) (left : String)
    (alternative : Alternative) : Prop :=
  ∃ before after, g.alternatives left = before ++ alternative :: after ∧
    (∀ symbol ∈ alternative, g.Lower c height symbol) ∧
    ∀ other ∈ before, ¬ ∀ symbol ∈ other, g.Lower c height symbol

variable {g : Grammar} {c : Criterion} {left : String} {height : Nat}

theorem leastHeight_iff :
    g.LeastHeight c left height ↔ g.Grounded c height (.variable left) ∧
      ∀ lower < height, ¬ g.Grounded c lower (.variable left) := by
  constructor
  · intro h
    obtain ⟨⟨tree, accepted, rfl⟩, least⟩ := h
    refine ⟨tree.grounded accepted, fun lower lt grounded => ?_⟩
    obtain ⟨other, accepted', low⟩ := grounded.exists_tree
    have := least other accepted'
    omega
  · intro h
    obtain ⟨grounded, least⟩ := h
    have floor (tree : g.Tree (.variable left)) (accepted : c.Accepts tree.word) :
        height ≤ tree.height :=
      Nat.not_lt.mp fun lt => least tree.height lt (tree.grounded accepted)
    obtain ⟨tree, accepted, low⟩ := grounded.exists_tree
    exact ⟨⟨tree, accepted, Nat.le_antisymm low (floor tree accepted)⟩, floor⟩

theorem leastHeight_succ_iff :
    g.LeastHeight c left (height + 1) ↔
      g.Grounded c (height + 1) (.variable left) ∧ ¬ g.Grounded c height (.variable left) := by
  rw [leastHeight_iff]
  refine and_congr_right fun _ => ⟨fun least => least height (Nat.lt_succ_self _), ?_⟩
  exact fun absent lower lt grounded => absent (grounded.mono (Nat.le_of_lt_succ lt))

theorem Grounded.exists_leastHeight (h : g.Grounded c height (.variable left)) :
    ∃ lower ≤ height, g.LeastHeight c left lower := by
  induction height with
  | zero => exact h.elim
  | succ height ih =>
    by_cases old : g.Grounded c height (.variable left)
    · obtain ⟨lower, le, least⟩ := ih old
      exact ⟨lower, Nat.le_succ_of_le le, least⟩
    · exact ⟨height + 1, Nat.le_refl _, leastHeight_succ_iff.mpr ⟨h, old⟩⟩

/-- To be lower is to have a tree of a height below. -/
theorem lower_succ_iff {symbol : Symbol} :
    g.Lower c (height + 1) symbol ↔ g.Grounded c height symbol := by
  rcases symbol with name | name
  · exact grounded_terminal.symm
  · constructor
    · intro h
      obtain ⟨lower, lt, least⟩ := h
      exact (leastHeight_iff.mp least).1.mono (Nat.le_of_lt_succ lt)
    · intro h
      obtain ⟨lower, le, least⟩ := h.exists_leastHeight
      exact ⟨lower, Nat.lt_succ_of_le le, least⟩

end Grammar

namespace Saturation

variable {g : Grammar} {c : Criterion} {height : Nat} {admitted : NameSet} {rules : List Rule}

/-- The pass admits the variables of one height, each by the first alternative below it. -/
structure AtHeight (g : Grammar) (c : Criterion) (height : Nat) (pass : Pass) : Prop where
  mem_iff : ∀ left, left ∈ pass.licenses.map License.left ↔ g.LeastHeight c left height
  first : ∀ license ∈ pass.licenses, g.FirstLower c height license.left license.alternative

/-- What the step at an index says that it has looked for: the first for what needs no other
variable, a later one for what needs those up to the step before it. -/
def lookedFor : Criterion → (index : Nat) → String
  | .terminating, 0 => "alternatives over terminal symbols"
  | .terminating, index + 1 => "alternatives over terminal symbols and TERM_" ++ toString (index + 1)
  | .nullable, 0 => "productions A -> λ"
  | .nullable, index + 1 => "alternatives over NULL_" ++ toString (index + 1)

/-- The production that a license quotes. -/
def quoted (license : License) : String :=
  license.left ++ " -> " ++ license.alternative.spelled

theorem Level.mem_licenses_iff (level : Level g c height admitted)
    (candidates : Candidates g admitted rules) (left : String) :
    left ∈ (rules.filterMap (license? c admitted)).map License.left ↔
      g.LeastHeight c left (height + 1) := by
  rw [Grammar.leastHeight_succ_iff, ← level left, ← level.grown candidates left, mem_grown]
  -- Only rules of variables outside the set are looked at, so what is licensed is new.
  have fresh (mem : left ∈ (rules.filterMap (license? c admitted)).map License.left) :
      left ∉ admitted := by
    obtain ⟨rule, listed, rfl, -⟩ := mem_licenses.mp mem
    exact ((candidates rule).mp listed).2.2
  constructor
  · exact fun mem => ⟨.inr mem, fresh mem⟩
  · exact fun h => h.1.resolve_left h.2

theorem Level.firstLower (level : Level g c height admitted)
    (candidates : Candidates g admitted rules) {license : License}
    (mem : license ∈ rules.filterMap (license? c admitted)) :
    g.FirstLower c (height + 1) license.left license.alternative := by
  obtain ⟨rule, listed, licensed⟩ := List.mem_filterMap.mp mem
  obtain ⟨alternative, found, rfl⟩ := Option.map_eq_some_iff.mp licensed
  obtain ⟨all, before, after, eq, unfit⟩ := List.find?_eq_some_iff_append.mp found
  have whole (alternative : Alternative) : alternative.all (c.qualifies admitted) = true ↔
      ∀ symbol ∈ alternative, g.Lower c (height + 1) symbol := by
    simp only [List.all_eq_true, level.qualifies_iff, Grammar.lower_succ_iff]
  refine ⟨before, after, ?_, (whole alternative).mp all, fun other mem lower => ?_⟩
  · rw [← ((candidates rule).mp listed).2.1, eq]
  · have := unfit other mem
    rw [(whole other).mpr lower] at this
    cases this

theorem Level.atHeight (level : Level g c height admitted)
    (candidates : Candidates g admitted rules) :
    AtHeight g c (height + 1)
      ⟨rules.filterMap (license? c admitted), Saturation.grown c admitted rules⟩ where
  mem_iff := level.mem_licenses_iff candidates
  first := fun _ mem => level.firstLower candidates mem

/-- No variable is higher than there are passes. -/
theorem leastHeight_le_length {left : String} (h : g.LeastHeight c left height) :
    height ≤ (run c g).length := by
  obtain ⟨grounded, least⟩ := Grammar.leastHeight_iff.mp h
  have mem := Grammar.mem_saturate_iff_grounded.mpr ⟨height, grounded⟩
  exact Nat.not_lt.mp fun lt => least _ lt ((Grammar.level_saturate left).mp mem)

/-- Without a pass there is no tree. -/
theorem not_leastHeight_of_nil (idle : run c g = []) (left : String) (height : Nat) :
    ¬ g.LeastHeight c left height := by
  intro h
  have low := leastHeight_le_length h
  rw [idle] at low
  obtain rfl := Nat.le_zero.mp low
  exact (Grammar.leastHeight_iff.mp h).1

/-- The passes in order admit the heights one, two, three and so on. -/
theorem atHeight_of_run {index : Nat} {pass : Pass} (h : (run c g)[index]? = some pass) :
    AtHeight g c (index + 1) pass ∧ pass.licenses ≠ [] := by
  obtain ⟨below, waiting, level, candidates, licensed, rfl⟩ :=
    (runs_run c g).exists_level level_empty candidates_sortedRules h
  rw [Nat.zero_add] at level
  exact ⟨level.atHeight candidates, licensed⟩

theorem atHeight_of_shown {index : Nat} {pass : Pass} (h : (shown (run c g))[index]? = some pass) :
    AtHeight g c (index + 1) pass := by
  by_cases idle : run c g = []
  · rw [idle, shown, List.getElem?_singleton] at h
    split at h
    · cases h
      exact ⟨by simp [not_leastHeight_of_nil idle], by simp⟩
    · cases h
  · rw [shown_of_ne_nil idle] at h
    exact (atHeight_of_run h).1

theorem exists_leastHeight_length (busy : run c g ≠ []) :
    ∃ left, g.LeastHeight c left (run c g).length := by
  have pos := List.length_pos_iff.mpr busy
  -- The last pass admits something, and all that it admits has its number for a height.
  have last := List.getElem?_eq_getElem (l := run c g) (i := (run c g).length - 1) (by omega)
  obtain ⟨own, licensed⟩ := atHeight_of_run last
  obtain ⟨license, mem⟩ := List.exists_mem_of_ne_nil _ licensed
  rw [Nat.sub_add_cancel pos] at own
  exact ⟨license.left, (own.mem_iff _).mp (List.mem_map_of_mem mem)⟩

theorem describe_eq (c : Criterion) (index : Nat) : c.describe (index + 1) = lookedFor c index := by
  cases c <;> cases index <;> rfl

theorem explain_of_ne_nil {licenses : List License} (licensed : licenses ≠ []) (index : Nat) :
    explain c (index + 1) licenses =
      lookedFor c index ++ ": " ++ ", ".intercalate (licenses.map quoted) := by
  have texts : (licenses.map fun l => productionText l.left l.alternative) = licenses.map quoted :=
    List.map_congr_left fun license _ => by
      rw [productionText, Alternative.text_eq_spelled, quoted]
  unfold explain
  split
  · exact absurd rfl licensed
  · simp only [texts, describe_eq]

theorem length_run_le (c : Criterion) (g : Grammar) :
    (run c g).length ≤ g.variableNames.length := by
  rw [← Grammar.lefts_sortedRules, List.length_map]
  exact (runs_run c g).length_le

end Saturation

/-- The steps go up the heights, from one to the greatest there is. -/
structure Stratified (g : Grammar) (c : Criterion) (steps : Trace) : Prop where
  ascending : ∀ step ∈ steps, step.newVariables.Pairwise (· < ·)
  heights : ∀ index step, steps[index]? = some step →
    ∀ name, name ∈ step.newVariables ↔ g.LeastHeight c name (index + 1)
  licensed : ∀ index step, steps[index]? = some step → step.newVariables ≠ [] →
    ∃ licenses : List License, licenses.map License.left = step.newVariables ∧
      (∀ license ∈ licenses, g.FirstLower c (index + 1) license.left license.alternative) ∧
      step.explanation = Saturation.lookedFor c index ++ ": " ++
        ", ".intercalate (licenses.map Saturation.quoted)
  greatest : ((∃ name, g.LeastHeight c name steps.length) ∧
      ∀ name height, g.LeastHeight c name height → height ≤ steps.length) ∨
    ((∀ name height, ¬ g.LeastHeight c name height) ∧ ∃ step, steps = [step] ∧
      step.newVariables = [] ∧ step.admitted = "∅" ∧
      step.explanation = Saturation.lookedFor c 0 ++ ": none")
  few : steps.length ≤ g.variableNames.length

namespace Grammar

variable {g : Grammar} {c : Criterion}

theorem exists_pass_of_step {index : Nat} {step : Step}
    (h : (g.saturate c).trace[index]? = some step) :
    ∃ pass, (Saturation.shown (Saturation.run c g))[index]? = some pass ∧
      step.newVariables = pass.licenses.map License.left ∧
      step.explanation = Saturation.explain c (index + 1) pass.licenses := by
  simp only [saturate, Trace.getElem?_ofGrowths, List.getElem?_map, List.getElem?_zipIdx,
    Option.map_map, Option.map_eq_some_iff, Nat.add_comm 1] at h
  obtain ⟨pass, own, rfl⟩ := h
  exact ⟨pass, own, rfl, rfl⟩

theorem length_saturate_trace :
    (g.saturate c).trace.length = (Saturation.shown (Saturation.run c g)).length := by
  simp [saturate, Trace.length_ofGrowths]

theorem stratified_saturate (hg : g.WellFormed) (c : Criterion) :
    Stratified g c (g.saturate c).trace where
  ascending := (g.audits_saturate c).ascending
  heights := by
    intro index step h
    obtain ⟨pass, shown, added, -⟩ := exists_pass_of_step h
    rw [added]
    exact (Saturation.atHeight_of_shown shown).mem_iff
  licensed := by
    intro index step h filled
    obtain ⟨pass, shown, added, explanation⟩ := exists_pass_of_step h
    refine ⟨pass.licenses, added.symm, (Saturation.atHeight_of_shown shown).first, ?_⟩
    rw [explanation, Saturation.explain_of_ne_nil]
    intro unlicensed
    rw [added, unlicensed] at filled
    exact filled rfl
  greatest := by
    rw [length_saturate_trace]
    by_cases idle : Saturation.run c g = []
    -- The first step is shown even where no pass had a license.
    · refine .inr ⟨Saturation.not_leastHeight_of_nil idle, ?_⟩
      have trace : (g.saturate c).trace =
          [(Saturation.growth c ⟨[], ∅⟩ 1).step c.phase c.phase.label 1] := by
        simp [saturate, idle, Saturation.shown, Trace.ofGrowths]
      refine ⟨_, trace, rfl, rfl, ?_⟩
      rw [← Saturation.describe_eq]
      exact String.append_assoc ..
    · rw [Saturation.shown_of_ne_nil idle]
      exact .inl ⟨Saturation.exists_leastHeight_length idle,
        fun _ _ least => Saturation.leastHeight_le_length least⟩
  few := by
    rw [length_saturate_trace]
    by_cases idle : Saturation.run c g = []
    · rw [idle]
      exact List.length_pos_of_mem (mem_variableNames.mpr hg.start_mem)
    · rw [Saturation.shown_of_ne_nil idle]
      exact Saturation.length_run_le c g

/-- The steps of both saturations are the heights of trees, and their loop needs no limit
to end with them. -/
theorem saturations_stratified (h : g.Arises) :
    Stratified g .terminating g.terminating.trace ∧ Stratified g .nullable g.nullable.trace ∧
      ∀ c, Saturation.Runs c ∅ g.sortedRules (Saturation.run c g) :=
  ⟨stratified_saturate h.wellFormed .terminating, stratified_saturate h.wellFormed .nullable,
    fun c => Saturation.runs_run c g⟩

/-- Each variable needs the one before it, up to one that needs itself. -/
def ladder : String := "S -> A x\nA -> C | B\nB -> b\nC -> C c"

theorem saturations_stratified_of_ladder :
    ∃ g, ofText ladder = .ok g ∧ Stratified g .terminating g.terminating.trace ∧
      g.LeastHeight .terminating "S" 3 ∧ (∀ height, ¬ g.LeastHeight .nullable "S" height) := by
  have shown : ((ofText ladder).toOption.map fun g =>
      (g.terminating.trace[2]?.map Step.newVariables, g.nullable.trace.map Step.newVariables)) =
      some (some ["S"], [[]]) := by decide
  obtain ⟨g, read, shown⟩ := exists_ok_of_shown shown
  obtain ⟨third, only_step⟩ := Prod.mk.inj shown
  obtain ⟨step, at_third, added⟩ := Option.map_eq_some_iff.mp third
  obtain ⟨terminating, nullable, -⟩ := saturations_stratified (.built (.text read))
  refine ⟨g, read, terminating, (terminating.heights 2 step at_third "S").mp (by simp [added]), ?_⟩
  obtain ⟨step, only, empty⟩ := List.map_eq_singleton_iff.mp only_step
  rcases nullable.greatest with ⟨⟨name, least⟩, -⟩ | ⟨no_tree, -⟩
  · rw [only, List.length_singleton, ← nullable.heights 0 step (by rw [only]; rfl), empty] at least
    cases least
  · exact no_tree "S"

end Grammar

end GrammarFixpoint
