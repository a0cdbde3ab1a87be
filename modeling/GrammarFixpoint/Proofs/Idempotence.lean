import GrammarFixpoint.Proofs.Reduction

/-! Reducing again. What a reduction leaves derives strings and is in reach, all of it:
the derivations of strings from a kept variable are those it had before, and a path to it
runs through kept variables. So both cuts of a second reduction are to all variables, and
a cut to all variables puts the rules together again as they stand. -/

namespace GrammarFixpoint.Grammar

variable {g productive reduced : Grammar} {keep : NameSet}

theorem WellFormed.keptRules_all (hg : g.WellFormed) (all : ∀ name ∈ g.table, name ∈ keep) :
    g.keptRules keep = g.rules := by
  have kept : g.rules.filter (fun rule => keep.contains rule.left) = g.rules := by
    refine List.filter_eq_self.mpr fun rule mem => ?_
    exact Std.ExtTreeSet.contains_iff_mem.mpr
      (all _ (hg.mem_order.mp (mem_rules.mp mem).1))
  rw [keptRules, kept]
  refine (List.map_congr_left fun rule mem => ?_).trans (List.map_id g.rules)
  have own := (mem_rules.mp mem).2
  have whole : rule.alternatives.filter (within keep) = rule.alternatives := by
    refine List.filter_eq_self.mpr fun alternative mem => within_iff.mpr fun {name} occurs => ?_
    exact all name (hg.variable_mem (own ▸ mem) occurs)
  rw [whole, id_eq]

/-- Restricted to all its variables, a grammar stays as it is. -/
theorem WellFormed.restrict_all (hg : g.WellFormed) (all : ∀ name ∈ g.table, name ∈ keep) :
    g.restrict keep = .ok g := by
  rw [hg.restrict_eq, hg.keptRules_all all, build_eq_ok_iff]
  exact ⟨g.start, rfl, hg.ofProductions_rules.symm, hg.start_mem, hg.variables_le, hg.terminals_le⟩

namespace Cuts

variable (cuts : Cuts g productive reduced)
include cuts

theorem mem_terminating_again {name : String} (mem : name ∈ reduced.table) :
    name ∈ reduced.terminating.value := by
  have known := cuts.first.wellFormed.mem_order.mp (cuts.second.mem_table_iff.mp mem).1
  obtain ⟨word, steps⟩ := mem_terminating_iff.mp (cuts.mem_productive_iff.mp known)
  exact mem_terminating_iff.mpr ⟨word, (cuts.generates_iff mem).mpr steps⟩

/-- A path that starts from a kept variable stays among them. -/
theorem reaches_again {first last : String} (path : productive.Reaches first last)
    (mem : first ∈ reduced.table) : reduced.Reaches first last := by
  induction path with
  | refl => exact .refl _
  | head step _ ih =>
    obtain ⟨alternative, own, occurs⟩ := step
    rw [← cuts.alternatives_second mem] at own
    exact .head ⟨alternative, own, occurs⟩ (ih (cuts.second.wellFormed.variable_mem own occurs))

theorem mem_reachable_again {name : String} (mem : name ∈ reduced.table) :
    name ∈ reduced.reachable.value := by
  have start : reduced.start = g.start := cuts.second.start.trans cuts.first.start
  have hr := cuts.second.wellFormed
  rw [mem_reachable_iff hr.closed, start]
  exact cuts.reaches_again (cuts.mem_reduced_iff.mp mem) (start ▸ hr.start_mem)

theorem terminating_again : reduced.terminating.value.toList = reduced.variableNames :=
  toList_eq_variableNames fun _ => ⟨mem_table_of_mem_saturate, cuts.mem_terminating_again⟩

theorem reachable_again : reduced.reachable.value.toList = reduced.variableNames :=
  toList_eq_variableNames fun _ =>
    ⟨cuts.second.wellFormed.closed.mem_table_of_mem_reachable, cuts.mem_reachable_again⟩

/-- A second reduction succeeds and takes nothing away. -/
theorem eliminateUseless_again :
    reduced.eliminateUseless = .ok ⟨reduced, reduced.terminating.trace ++
      reduced.transition reduced.terminating.value :: reduced.reachable.trace⟩ := by
  have hr := cuts.second.wellFormed
  exact eliminateUseless_of_stages (cuts.mem_terminating_again hr.start_mem)
    (hr.restrict_all fun _ => cuts.mem_terminating_again)
    (hr.restrict_all fun _ => cuts.mem_reachable_again)

end Cuts

/-- Where no variable is outside, the transition says so. -/
theorem transition_of_all {set : NameSet} (all : set.toList = g.variableNames) :
    g.transition set = {
      phase := .useless
      iteration := "TERM → REACH"
      admitted := setNotation g.variableNames
      explanation := "every variable is terminating"
      newVariables := [] } := by
  have complete : g.variableNames.filter (!set.contains ·) = [] := by
    rw [← all]
    simp
  simp only [transition, complete, all]

theorem exists_eliminateUseless_again (hg : g.WellFormed) {result : Traced Grammar}
    (h : g.eliminateUseless = .ok result) :
    ∃ again, result.value.eliminateUseless = .ok again ∧ again.value = result.value := by
  obtain ⟨productive, cuts⟩ := exists_cuts hg h
  exact ⟨_, cuts.eliminateUseless_again, rfl⟩

/-- Reducing again gives the very grammar that was reduced, the order of its rules
included, and its trace says that there was nothing to remove. -/
theorem reduction_idempotent (h : g.Arises) {result : Traced Grammar}
    (reduce : g.eliminateUseless = .ok result) :
    ∃ again, result.value.eliminateUseless = .ok again ∧ again.value = result.value ∧
      result.value.terminating.value.toList = result.value.variableNames ∧
      result.value.reachable.value.toList = result.value.variableNames ∧
      again.trace = result.value.terminating.trace ++ {
        phase := .useless
        iteration := "TERM → REACH"
        admitted := setNotation result.value.variableNames
        explanation := "every variable is terminating"
        newVariables := [] } :: result.value.reachable.trace := by
  obtain ⟨productive, cuts⟩ := exists_cuts h.wellFormed reduce
  refine ⟨_, cuts.eliminateUseless_again, rfl, cuts.terminating_again, cuts.reachable_again, ?_⟩
  rw [transition_of_all cuts.terminating_again]

theorem reduction_idempotent_of_cycles :
    ∃ g result again, ofText cycles = .ok g ∧ g.eliminateUseless = .ok result ∧
      result.value.eliminateUseless = .ok again ∧ again.value = result.value ∧
      result.value.terminating.value.toList = ["S"] ∧
      result.value.reachable.value.toList = ["S"] := by
  obtain ⟨g, result, read, reduce, -, names, -⟩ := ofText_cycles
  obtain ⟨again, reduce', same, terminating, reachable, -⟩ :=
    reduction_idempotent (.built (.text read)) reduce
  exact ⟨g, result, again, read, reduce, reduce', same, terminating.trans names,
    reachable.trans names⟩

end GrammarFixpoint.Grammar
