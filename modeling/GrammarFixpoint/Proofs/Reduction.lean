import GrammarFixpoint.Algorithm
import GrammarFixpoint.Proofs.Built
import GrammarFixpoint.Proofs.Reachability
import GrammarFixpoint.Proofs.Restriction

/-! Removing useless variables. A reduction cuts a grammar down twice: to the
variables that derive a string, then to those in reach of what is left. Both sets
support themselves, so neither cut fails. Every variable of the grammar in between
derives a string, so whatever is reached there is part of a whole derivation; and
a whole derivation keeps to variables that derive strings, so it survives the
first cut, and all of it is in reach. -/

namespace GrammarFixpoint

namespace Grammar

/-- The variable stands in a derivation of a string from the start symbol. -/
def Useful (g : Grammar) (name : String) : Prop :=
  ∃ before after, g.Derives [.variable g.start] (before ++ .variable name :: after) ∧
    g.Completes (before ++ .variable name :: after)

/-- The alternative is what a step in a derivation of a string from the start
symbol puts in place of the variable. -/
def Used (g : Grammar) (left : String) (alternative : Alternative) : Prop :=
  alternative ∈ g.alternatives left ∧
    ∃ before after, g.Derives [.variable g.start] (before ++ .variable left :: after) ∧
      g.Completes (before ++ (alternative ++ after))

variable {g productive reduced : Grammar}

/-- A variable that derives a string does so by an alternative over such variables. -/
theorem supports_terminating (start : g.start ∈ g.terminating.value) :
    g.Supports g.terminating.value where
  start_mem := start
  exists_within := by
    intro left mem
    obtain ⟨height, tree⟩ := mem_saturate_iff_grounded.mp mem
    obtain ⟨height, alternative, own, parts⟩ := tree.exists_alternative
    exact ⟨alternative, own, within_iff.mpr fun occurs =>
      mem_saturate_iff_grounded.mpr ⟨height, parts _ occurs⟩⟩

/-- What a reached variable exposes is reached. -/
theorem reachable_closed (hg : g.WellFormed) {left : String} (mem : left ∈ g.reachable.value)
    (alternative : Alternative) (own : alternative ∈ g.alternatives left) :
    Kept g.reachable.value alternative := by
  intro name occurs
  rw [mem_reachable_iff hg.closed] at mem ⊢
  exact mem.tail ⟨alternative, own, occurs⟩

theorem supports_reachable (hg : g.WellFormed) : g.Supports g.reachable.value where
  start_mem := (mem_reachable_iff hg.closed).mpr (.refl _)
  exists_within := by
    intro left mem
    have known := hg.closed.mem_table_of_mem_reachable mem
    obtain ⟨alternative, own⟩ := List.exists_mem_of_ne_nil _ (hg.alternatives_ne_nil known)
    exact ⟨alternative, own, within_iff.mpr fun {name} occurs =>
      reachable_closed hg mem alternative own name occurs⟩

/-- The two cuts of a reduction. -/
structure Cuts (g productive reduced : Grammar) : Prop where
  wellFormed : g.WellFormed
  first : Restricted g productive g.terminating.value
  second : Restricted productive reduced productive.reachable.value

theorem eliminateUseless_eq_error (h : g.start ∉ g.terminating.value) :
    g.eliminateUseless = .error (.emptyLanguage g.start) := by
  simp [eliminateUseless, h, throw, throwThe, MonadExceptOf.throw, bind, Except.bind]

/-- A reduction that passes both cuts. -/
theorem eliminateUseless_of_stages (start : g.start ∈ g.terminating.value)
    (cut : g.restrict g.terminating.value = .ok productive)
    (cut' : productive.restrict productive.reachable.value = .ok reduced) :
    g.eliminateUseless = .ok ⟨reduced, g.terminating.trace ++
      g.transition g.terminating.value :: productive.reachable.trace⟩ := by
  simp [eliminateUseless, start, cut, cut', bind, Except.bind, pure, Except.pure]

theorem eliminateUseless_eq_ok (hg : g.WellFormed) (start : g.start ∈ g.terminating.value) :
    ∃ productive reduced, Cuts g productive reduced ∧
      g.eliminateUseless = .ok ⟨reduced, g.terminating.trace ++
        g.transition g.terminating.value :: productive.reachable.trace⟩ := by
  obtain ⟨productive, cut, first⟩ := (supports_terminating start).restrict_eq_ok hg
  obtain ⟨reduced, cut', second⟩ :=
    (supports_reachable first.wellFormed).restrict_eq_ok first.wellFormed
  exact ⟨productive, reduced, ⟨hg, first, second⟩, eliminateUseless_of_stages start cut cut'⟩

/-- What a reduction that succeeds has gone through. -/
theorem exists_stages {result : Traced Grammar} (h : g.eliminateUseless = .ok result) :
    ∃ productive, g.start ∈ g.terminating.value ∧
      g.restrict g.terminating.value = .ok productive ∧
      productive.restrict productive.reachable.value = .ok result.value ∧
      result.trace = g.terminating.trace ++
        g.transition g.terminating.value :: productive.reachable.trace := by
  have start : g.start ∈ g.terminating.value := by
    apply Decidable.byContradiction
    intro unproductive
    rw [eliminateUseless_eq_error unproductive] at h
    cases h
  cases cut : g.restrict g.terminating.value with
  | error e => simp [eliminateUseless, start, cut, bind, Except.bind] at h
  | ok productive =>
    cases cut' : productive.restrict productive.reachable.value with
    | error e => simp [eliminateUseless, start, cut, cut', bind, Except.bind] at h
    | ok reduced =>
      have eq := eliminateUseless_of_stages start cut cut'
      rw [h, Except.ok.injEq] at eq
      subst eq
      exact ⟨productive, start, rfl, cut', rfl⟩

theorem exists_cuts (hg : g.WellFormed) {result : Traced Grammar}
    (h : g.eliminateUseless = .ok result) : ∃ productive, Cuts g productive result.value := by
  obtain ⟨productive, start, cut, cut', -⟩ := exists_stages h
  have first := (supports_terminating start).restricted hg cut
  exact ⟨productive, hg, first,
    (supports_reachable first.wellFormed).restricted first.wellFormed cut'⟩

/-- A reduction that succeeds is answered by the grammar it leaves and its trace. -/
theorem outcome_useless {answer : Outcome} (h : g.outcome .useless = .ok answer) :
    ∃ result, g.eliminateUseless = .ok result ∧
      answer = .grammar Algorithm.useless.title result.value.snapshot result.trace := by
  rw [outcome] at h
  cases reduce : g.eliminateUseless with
  | error e =>
    rw [reduce] at h
    cases h
  | ok result =>
    rw [reduce] at h
    cases h
    exact ⟨result, rfl, rfl⟩

/-- Only a reduction can fail, and only where the start symbol derives no string. -/
theorem outcome_eq_error {algorithm : Algorithm} {e : ReductionError} (hg : g.WellFormed)
    (h : g.outcome algorithm = .error e) :
    algorithm = .useless ∧ e = .emptyLanguage g.start ∧ g.start ∉ g.terminating.value := by
  cases algorithm with
  | terminating | nullable | reachable | unit => cases h
  | useless =>
    by_cases start : g.start ∈ g.terminating.value
    · obtain ⟨_, _, -, reduce⟩ := eliminateUseless_eq_ok hg start
      rw [outcome, reduce] at h
      cases h
    · rw [outcome, eliminateUseless_eq_error start] at h
      cases h
      exact ⟨rfl, rfl, start⟩

/-- The grammars that there are: built ones, and what reductions make of them. -/
inductive Arises : Grammar → Prop where
  | built {g : Grammar} (h : g.Built) : Arises g
  | reduced {g : Grammar} {result : Traced Grammar} (h : Arises g)
      (reduce : g.eliminateUseless = .ok result) : Arises result.value

theorem Arises.wellFormed (h : g.Arises) : g.WellFormed := by
  induction h with
  | built h => exact h.wellFormed
  | reduced _ reduce ih =>
    obtain ⟨_, cuts⟩ := exists_cuts ih reduce
    exact cuts.second.wellFormed

/-- A reduction fails where there is nothing to derive, and nowhere else. -/
theorem eliminateUseless_eq_error_iff (hg : g.WellFormed) :
    g.eliminateUseless = .error (.emptyLanguage g.start) ↔
      ∀ word, ¬ g.Generates g.start word := by
  constructor
  · intro failed word steps
    have productive := mem_terminating_iff.mpr ⟨word, steps⟩
    obtain ⟨_, _, _, reduced⟩ := eliminateUseless_eq_ok hg productive
    rw [reduced] at failed
    cases failed
  · intro empty
    apply eliminateUseless_eq_error
    rw [mem_terminating_iff]
    intro nonempty
    obtain ⟨word, steps⟩ := nonempty
    exact empty word steps

namespace Cuts

variable (cuts : Cuts g productive reduced)
include cuts

theorem mem_productive_iff {name : String} :
    name ∈ productive.table ↔ name ∈ g.terminating.value := by
  rw [cuts.first.mem_table_iff]
  refine ⟨And.right, fun mem => ⟨?_, mem⟩⟩
  exact cuts.wellFormed.mem_order.mpr (mem_table_of_mem_saturate mem)

theorem mem_reduced_iff {name : String} :
    name ∈ reduced.table ↔ productive.Reaches g.start name := by
  have hp := cuts.first.wellFormed
  rw [cuts.second.mem_table_iff, hp.mem_order, mem_reachable_iff hp.closed, cuts.first.start]
  refine ⟨And.right, fun path => ⟨?_, path⟩⟩
  exact path.mem_table hp.closed (cuts.first.start ▸ hp.start_mem)

/-- All that the start symbol derives after the first cut can be completed. -/
theorem kept_of_derives {form : List Symbol}
    (steps : productive.Derives [.variable g.start] form) : Kept g.terminating.value form := by
  have hp := cuts.first.wellFormed
  intro name mem
  obtain ⟨first, start, path⟩ := steps.reaches mem
  rw [Symbol.variable.inj (List.mem_singleton.mp start)] at path
  rw [← cuts.mem_productive_iff]
  exact path.mem_table hp.closed (cuts.first.start ▸ hp.start_mem)

theorem reaches_iff_useful {name : String} :
    productive.Reaches g.start name ↔ g.Useful name := by
  constructor
  · intro path
    obtain ⟨before, after, steps⟩ := path.derives
    exact ⟨before, after, cuts.first.derives steps, completes_iff_kept.mpr (cuts.kept_of_derives steps)⟩
  · intro useful
    obtain ⟨before, after, steps, completed⟩ := useful
    exact reaches_iff_derives.mpr
      ⟨before, after, cuts.first.derives_of_completed cuts.wellFormed steps completed⟩

/-- The variables that stay are those of whole derivations. -/
theorem mem_reduced_iff_useful {name : String} : name ∈ reduced.table ↔ g.Useful name :=
  cuts.mem_reduced_iff.trans cuts.reaches_iff_useful

/-- The alternatives that stay are those of whole derivations. Around a variable
in reach all can be completed, so it is only the alternative itself that decides. -/
theorem used_iff {left : String} {alternative : Alternative} :
    g.Used left alternative ↔ left ∈ reduced.table ∧ alternative ∈ g.alternatives left ∧
      within g.terminating.value alternative = true := by
  constructor
  · intro used
    obtain ⟨own, before, after, steps, completed⟩ := used
    have step : g.Produces (before ++ .variable left :: after) (before ++ (alternative ++ after)) :=
      .replace before after own
    refine ⟨?_, own, within_iff.mpr fun {name} occurs => ?_⟩
    · exact cuts.mem_reduced_iff_useful.mpr ⟨before, after, steps, completed.head step⟩
    · exact completes_iff_kept.mp completed name (by simp [occurs])
  · intro h
    obtain ⟨mem, own, inside⟩ := h
    obtain ⟨before, after, steps⟩ := (cuts.mem_reduced_iff.mp mem).derives
    have around := cuts.kept_of_derives steps
    have kept : Kept g.terminating.value (before ++ (alternative ++ after)) := by
      intro name occurs
      rcases List.mem_append.mp occurs with occurs | occurs
      · exact around name (by simp [occurs])
      rcases List.mem_append.mp occurs with occurs | occurs
      · exact within_iff.mp inside occurs
      · exact around name (by simp [occurs])
    exact ⟨own, before, after, cuts.first.derives steps, completes_iff_kept.mpr kept⟩

/-- The second cut takes no alternative from a variable that it keeps. -/
theorem alternatives_second {left : String} (mem : left ∈ reduced.table) :
    reduced.alternatives left = productive.alternatives left := by
  rw [cuts.second.alternatives_eq mem, List.filter_eq_self]
  intro alternative own
  exact within_iff.mpr fun {name} occurs => reachable_closed cuts.first.wellFormed
    (cuts.second.mem_table_iff.mp mem).2 alternative own name occurs

theorem mem_alternatives_iff {left : String} {alternative : Alternative} :
    alternative ∈ reduced.alternatives left ↔ g.Used left alternative := by
  rw [cuts.used_iff]
  have known (mem : left ∈ reduced.table) : left ∈ productive.table :=
    cuts.first.wellFormed.mem_order.mp (cuts.second.mem_table_iff.mp mem).1
  constructor
  · intro own
    have mem := mem_table_of_mem_alternatives own
    rw [cuts.alternatives_second mem, cuts.first.mem_alternatives_iff] at own
    exact ⟨mem, own.2⟩
  · intro h
    rw [cuts.alternatives_second h.1, cuts.first.mem_alternatives_iff]
    exact ⟨known h.1, h.2⟩

/-- Derivations of strings from a kept variable are the same before and after. -/
theorem generates_iff {left : String} (mem : left ∈ reduced.table) {word : List String} :
    reduced.Generates left word ↔ g.Generates left word := by
  have hp := cuts.first.wellFormed
  constructor
  · exact fun steps => cuts.first.derives (cuts.second.derives steps)
  · intro steps
    have steps := cuts.first.derives_of_completed cuts.wellFormed steps ⟨word, .refl _⟩
    apply cuts.second.derives_of_closed hp (reachable_closed hp) steps
    intro name occurs
    rw [Symbol.variable.inj (List.mem_singleton.mp occurs)]
    exact (cuts.second.mem_table_iff.mp mem).2

/-- What stays of a rule is its used alternatives in their order, repeats included. -/
theorem alternatives_eq_filter [∀ left, DecidablePred (g.Used left)] (left : String) :
    reduced.alternatives left =
      (g.alternatives left).filter fun alternative => decide (g.Used left alternative) := by
  by_cases mem : left ∈ reduced.table
  · have known := cuts.first.wellFormed.mem_order.mp (cuts.second.mem_table_iff.mp mem).1
    rw [cuts.alternatives_second mem, cuts.first.alternatives_eq known]
    apply List.filter_congr
    intro alternative own
    rw [Bool.eq_iff_iff, decide_eq_true_iff, cuts.used_iff]
    exact ⟨fun inside => ⟨mem, own, inside⟩, fun used => used.2.2⟩
  · rw [alternatives, Std.ExtTreeMap.getD_eq_fallback mem]
    symm
    apply List.filter_eq_nil_iff.mpr
    intro alternative _ used
    exact mem (cuts.used_iff.mp (of_decide_eq_true used)).1

/-- What stays of the order is the useful variables in their order. -/
theorem order_eq_filter [DecidablePred g.Useful] :
    reduced.order = g.order.filter fun name => decide (g.Useful name) := by
  rw [cuts.second.order_eq, cuts.first.order_eq, List.filter_filter]
  apply List.filter_congr
  intro name _
  have both := @Restricted.mem_table_iff _ _ _ name cuts.second
  rw [cuts.first.wellFormed.mem_order, cuts.mem_productive_iff, cuts.mem_reduced_iff_useful] at both
  rw [Bool.eq_iff_iff, decide_eq_true_iff, both, Bool.and_eq_true, Std.ExtTreeSet.contains_iff_mem,
    Std.ExtTreeSet.contains_iff_mem, and_comm]

end Cuts

/-- A reduction fails exactly on an empty language, and what it returns derives
the same strings as before from each variable that is left. -/
theorem eliminateUseless_preserves_meaning (built : g.Built) :
    (g.eliminateUseless = .error (.emptyLanguage g.start) ↔ ∀ word, ¬ g.Generates g.start word) ∧
    ((∃ word, g.Generates g.start word) →
      ∃ result, g.eliminateUseless = .ok result ∧ result.value.start = g.start ∧
        result.value.start ∈ result.value.variableNames ∧
        ∀ left ∈ result.value.variableNames, ∀ word,
          result.value.Generates left word ↔ g.Generates left word) := by
  refine ⟨eliminateUseless_eq_error_iff built.wellFormed, ?_⟩
  intro nonempty
  obtain ⟨productive, reduced, cuts, eq⟩ :=
    eliminateUseless_eq_ok built.wellFormed (mem_terminating_iff.mpr nonempty)
  have start : reduced.start = g.start := cuts.second.start.trans cuts.first.start
  refine ⟨_, eq, start, mem_variableNames.mpr cuts.second.wellFormed.start_mem, ?_⟩
  intro left mem word
  exact cuts.generates_iff (mem_variableNames.mp mem)

/-- A text with cycles, a repeated alternative and a variable in reach only through
an alternative that is removed. -/
def cycles : String := "S -> a S | A B | λ | a S\nA -> A a\nB -> b | S"

theorem ofText_cycles : ∃ g result, ofText cycles = .ok g ∧ g.eliminateUseless = .ok result ∧
    g.Generates g.start [] ∧ result.value.variableNames = ["S"] ∧
    result.value.alternatives "S" =
      [[.terminal "a", .variable "S"], [], [.terminal "a", .variable "S"]] := by
  have shown : ((ofText cycles).toOption.map fun g =>
      ((g.alternatives g.start)[2]?, g.eliminateUseless.toOption.map fun result =>
        (result.value.variableNames, result.value.alternatives "S"))) =
      some (some [], some (["S"],
        [[.terminal "a", .variable "S"], [], [.terminal "a", .variable "S"]])) := by decide
  obtain ⟨g, read, shown⟩ := exists_ok_of_shown shown
  simp only [Prod.mk.injEq] at shown
  obtain ⟨empty, reduced⟩ := shown
  obtain ⟨result, reduce, reduced⟩ := exists_ok_of_shown reduced
  simp only [Prod.mk.injEq] at reduced
  exact ⟨g, result, read, reduce, derives_alternative (List.mem_of_getElem? empty), reduced⟩

theorem eliminateUseless_preserves_meaning_of_cycles :
    ∃ g result, ofText cycles = .ok g ∧ g.eliminateUseless = .ok result ∧
      ∀ word, result.value.Generates "S" word ↔ g.Generates "S" word := by
  obtain ⟨g, result, read, reduce, empty, names, -⟩ := ofText_cycles
  obtain ⟨result', reduce', -, -, same⟩ :=
    (eliminateUseless_preserves_meaning (.text read)).2 ⟨[], empty⟩
  rw [reduce, Except.ok.injEq] at reduce'
  subst reduce'
  exact ⟨g, result, read, reduce, same "S" (by simp [names])⟩

/-- A reduction keeps exactly the useful variables and the used alternatives, in
their order, and no terminals but theirs. -/
theorem eliminateUseless_keeps_useful [DecidablePred g.Useful] [∀ left, DecidablePred (g.Used left)]
    (built : g.Built) (nonempty : ∃ word, g.Generates g.start word) :
    ∃ result, g.eliminateUseless = .ok result ∧
      (∀ name, name ∈ result.value.variableNames ↔ g.Useful name) ∧
      (∀ left alternative,
        alternative ∈ result.value.alternatives left ↔ g.Used left alternative) ∧
      (∀ left, result.value.alternatives left =
        (g.alternatives left).filter fun alternative => decide (g.Used left alternative)) ∧
      (result.value.order = g.order.filter fun name => decide (g.Useful name)) ∧
      ∀ name, name ∈ result.value.terminalNames ↔
        ∃ left alternative, g.Used left alternative ∧ Symbol.terminal name ∈ alternative := by
  obtain ⟨productive, reduced, cuts, eq⟩ :=
    eliminateUseless_eq_ok built.wellFormed (mem_terminating_iff.mpr nonempty)
  refine ⟨_, eq, ?_, ?_, cuts.alternatives_eq_filter, cuts.order_eq_filter, ?_⟩
  · intro name
    exact mem_variableNames.trans cuts.mem_reduced_iff_useful
  · intro left alternative
    exact cuts.mem_alternatives_iff
  · intro name
    rw [mem_terminalNames]
    constructor
    · intro h
      obtain ⟨left, alternative, own, occurs⟩ := h
      exact ⟨left, alternative, cuts.mem_alternatives_iff.mp own, occurs⟩
    · intro h
      obtain ⟨left, alternative, used, occurs⟩ := h
      exact ⟨left, alternative, cuts.mem_alternatives_iff.mpr used, occurs⟩

theorem eliminateUseless_keeps_useful_of_cycles :
    ∃ g result, ofText cycles = .ok g ∧ g.eliminateUseless = .ok result ∧
      g.Useful "S" ∧ ¬ g.Useful "B" ∧ g.Used "S" [] ∧
      ¬ g.Used "S" [.variable "A", .variable "B"] := by
  obtain ⟨g, result, read, reduce, empty, names, own⟩ := ofText_cycles
  have : DecidablePred g.Useful := fun _ => Classical.propDecidable _
  have (left : String) : DecidablePred (g.Used left) := fun _ => Classical.propDecidable _
  obtain ⟨result', reduce', useful, used, -, -, -⟩ :=
    eliminateUseless_keeps_useful (.text read) ⟨[], empty⟩
  rw [reduce, Except.ok.injEq] at reduce'
  subst reduce'
  refine ⟨g, result, read, reduce, ?_, ?_, ?_, ?_⟩
  · rw [← useful, names]; simp
  · rw [← useful, names]; simp
  · rw [← used, own]; simp
  · rw [← used, own]; simp

end Grammar

end GrammarFixpoint
