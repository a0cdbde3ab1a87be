import GrammarFixpoint.Analysis.UnitClosure
import GrammarFixpoint.Proofs.Reduction

/-! What a trace tells about its result. The loops keep a set and write down growths
of it: a pass adds its variables all at once, an expansion what it exposes, a unit link
one target. Each growth adds names that are new, in ascending order, and shows the set
with them, and this is all that the loops have in common; whatever grows a set in this
way leaves a trace from which every set on the way can be read back. The trace of a
reduction is put together from two such traces. Its second half belongs to another
grammar, whose variables are those reached there and so those that stay. -/

namespace GrammarFixpoint

/-- Growths that account for a set: what each adds is new and in ascending order, and
the set it shows is the one before with just these names more. -/
inductive Accounts : NameSet → List Growth → NameSet → Prop where
  | nil (reached : NameSet) : Accounts reached [] reached
  | cons {reached last : NameSet} {growth : Growth} {growths : List Growth}
      (ascending : growth.added.Pairwise (· < ·))
      (fresh : ∀ name ∈ growth.added, name ∉ reached)
      (grown : growth.reached = reached.insertMany growth.added)
      (rest : Accounts growth.reached growths last) :
      Accounts reached (growth :: growths) last

namespace Accounts

variable {reached last : NameSet} {growths : List Growth}

theorem ascending (h : Accounts reached growths last) :
    ∀ growth ∈ growths, growth.added.Pairwise (· < ·) := by
  induction h with
  | nil => simp
  | cons ascending _ _ _ ih => exact List.forall_mem_cons.mpr ⟨ascending, ih⟩

/-- No growth adds what was there from the beginning. -/
theorem fresh (h : Accounts reached growths last) :
    ∀ growth ∈ growths, ∀ name ∈ growth.added, name ∉ reached := by
  induction h with
  | nil => simp
  | cons _ fresh grown _ ih =>
    refine List.forall_mem_cons.mpr ⟨fresh, ?_⟩
    intro growth mem name added old
    refine ih growth mem name added ?_
    rw [grown, Std.ExtTreeSet.mem_insertMany_list]
    exact .inl old

theorem disjoint (h : Accounts reached growths last) :
    growths.Pairwise fun growth other => ∀ name ∈ growth.added, name ∉ other.added := by
  induction h with
  | nil => exact .nil
  | cons _ _ grown rest ih =>
    refine List.pairwise_cons.mpr ⟨?_, ih⟩
    intro other mem name added again
    refine rest.fresh other mem name again ?_
    rw [grown, Std.ExtTreeSet.mem_insertMany_list]
    simp [added]

/-- Every set on the way is the first one with all that was added since. -/
theorem reached_eq (h : Accounts reached growths last) (index : Nat) {growth : Growth}
    (at_index : growths[index]? = some growth) :
    growth.reached = reached.insertMany ((growths.take (index + 1)).flatMap Growth.added) := by
  induction h generalizing index with
  | nil => simp at at_index
  | cons _ _ grown _ ih =>
    cases index with
    | zero =>
      simp only [List.getElem?_cons_zero, Option.some.injEq] at at_index
      subst at_index
      simpa using grown
    | succ index =>
      rw [List.getElem?_cons_succ] at at_index
      rw [ih index at_index, grown, List.take_succ_cons, List.flatMap_cons,
        Std.ExtTreeSet.insertMany_append]

theorem last_eq (h : Accounts reached growths last) :
    last = reached.insertMany (growths.flatMap Growth.added) := by
  induction h with
  | nil => simp
  | cons _ _ grown _ ih =>
    rw [ih, grown, List.flatMap_cons, Std.ExtTreeSet.insertMany_append]

/-- The set of the last growth is what the growths end with. -/
theorem getLast?_eq (h : Accounts reached growths last) :
    (growths.getLast?.map Growth.reached).getD reached = last := by
  induction h with
  | nil => rfl
  | @cons _ _ growth growths _ _ _ _ ih =>
    rw [← ih, List.getLast?_cons]
    cases growths.getLast? <;> rfl

end Accounts

/-! ## Traces -/

/-- The variables that are new in some step. -/
def Trace.admitted (trace : Trace) : NameSet := NameSet.ofList (trace.flatMap Step.newVariables)

/-- A trace that can be checked against a set: its steps are numbered without a gap,
none repeats what another adds, and each shows all that was added so far. -/
structure Audits (phase : Phase) (label : String) (steps : Trace) (result : NameSet) : Prop where
  phases : ∀ step ∈ steps, step.phase = phase
  labels : steps.map Step.iteration =
    (List.range' 1 steps.length).map fun number => label ++ "_" ++ toString number
  ascending : ∀ step ∈ steps, step.newVariables.Pairwise (· < ·)
  disjoint : steps.Pairwise fun step other => ∀ name ∈ step.newVariables, name ∉ other.newVariables
  snapshots : ∀ index step, steps[index]? = some step →
    step.admitted = setNotation (Trace.admitted (steps.take (index + 1))).toList
  union : Trace.admitted steps = result

section Trace

variable {phase : Phase} {label : String} {growths : List Growth} {result : NameSet}

theorem Trace.newVariables_ofGrowths (phase : Phase) (label : String) (growths : List Growth) :
    (Trace.ofGrowths phase label growths).map Step.newVariables = growths.map Growth.added := by
  rw [Trace.ofGrowths, List.map_map, ← List.zipIdx_map_fst 1 growths, List.map_map,
    List.zipIdx_map_fst]
  rfl

theorem Trace.getElem?_ofGrowths (phase : Phase) (label : String) (growths : List Growth)
    (index : Nat) :
    (Trace.ofGrowths phase label growths)[index]? =
      growths[index]?.map fun growth => growth.step phase label (1 + index) := by
  simp [Trace.ofGrowths, Function.comp_def]

/-- A step behind the first is that of the item in its place. -/
theorem Trace.exists_of_later_step {Item : Type} {items : List Item} {growth : Item → Growth}
    {first : Growth} {index : Nat} {step : Step}
    (h : (Trace.ofGrowths phase label (first :: items.map growth))[index + 1]? = some step) :
    ∃ item, items[index]? = some item ∧
      step = (growth item).step phase label (1 + (index + 1)) := by
  rw [Trace.getElem?_ofGrowths, List.getElem?_cons_succ, List.getElem?_map, Option.map_map,
    Option.map_eq_some_iff] at h
  obtain ⟨item, at_index, rfl⟩ := h
  exact ⟨item, at_index, rfl⟩

theorem Trace.length_ofGrowths (phase : Phase) (label : String) (growths : List Growth) :
    (Trace.ofGrowths phase label growths).length = growths.length := by
  simp [Trace.ofGrowths]

theorem Trace.admitted_eq {trace : Trace} {growths : List Growth}
    (h : trace.map Step.newVariables = growths.map Growth.added) :
    Trace.admitted trace = (∅ : NameSet).insertMany (growths.flatMap Growth.added) := by
  rw [Trace.admitted, NameSet.ofList, List.flatMap_def, h, ← List.flatMap_def,
    Std.ExtTreeSet.ofList_eq_insertMany_empty]

/-- The first steps admit what the first growths add. -/
theorem Trace.admitted_take (phase : Phase) (label : String) (growths : List Growth)
    (count : Nat) :
    Trace.admitted ((Trace.ofGrowths phase label growths).take count) =
      (∅ : NameSet).insertMany ((growths.take count).flatMap Growth.added) := by
  apply Trace.admitted_eq
  rw [List.map_take, Trace.newVariables_ofGrowths, List.map_take]

/-- The trace of growths that account for a set can be checked against it. -/
theorem Accounts.audits (h : Accounts ∅ growths result) :
    Audits phase label (Trace.ofGrowths phase label growths) result := by
  have added := Trace.newVariables_ofGrowths phase label growths
  refine ⟨?_, ?_, ?_, ?_, ?_, ?_⟩
  · intro step mem
    obtain ⟨⟨growth, number⟩, -, rfl⟩ := List.mem_map.mp mem
    rfl
  · rw [Trace.length_ofGrowths, ← List.zipIdx_map_snd, Trace.ofGrowths, List.map_map, List.map_map]
    rfl
  · rw [← List.forall_mem_map, added, List.forall_mem_map]
    exact h.ascending
  · rw [← List.pairwise_map (R := fun names others => ∀ name ∈ names, name ∉ others), added,
      List.pairwise_map]
    exact h.disjoint
  · intro index step at_index
    rw [Trace.getElem?_ofGrowths] at at_index
    obtain ⟨growth, own, rfl⟩ := Option.map_eq_some_iff.mp at_index
    rw [Trace.admitted_take, ← h.reached_eq index own]
    rfl
  · rw [Trace.admitted_eq added, h.last_eq]

/-- The last step of a trace shows the result. -/
theorem Audits.getLast?_admitted {trace : Trace} (h : Audits phase label trace result)
    {step : Step} (last : trace.getLast? = some step) :
    step.admitted = setNotation result.toList := by
  rw [List.getLast?_eq_getElem?] at last
  have inside := (List.getElem?_eq_some_iff.mp last).1
  rw [h.snapshots _ step last, Nat.sub_add_cancel (by omega), List.take_length, h.union]

end Trace

/-! ## The three loops -/

namespace Saturation

variable {rules : List Rule}

theorem licenses_sublist (c : Criterion) (admitted : NameSet) (rules : List Rule) :
    ((rules.filterMap (license? c admitted)).map License.left).Sublist (rules.map Rule.left) := by
  induction rules with
  | nil => simp
  | cons rule rules ih =>
    rw [List.filterMap_cons, List.map_cons]
    cases found : license? c admitted rule with
    | none => exact ih.cons rule.left
    | some license =>
      obtain ⟨alternative, -, rfl⟩ := Option.map_eq_some_iff.mp found
      exact ih.cons_cons rule.left

/-- The passes over rules in ascending order of variables that are not admitted yet. -/
theorem accounts_passes (c : Criterion) (limit number : Nat) (admitted : NameSet)
    (ascending : (rules.map Rule.left).Pairwise (· < ·))
    (absent : ∀ rule ∈ rules, rule.left ∉ admitted) :
    ∃ last, Accounts admitted (((passes c limit admitted rules).zipIdx number).map
      fun (pass, number) => growth c pass number) last := by
  induction limit generalizing rules number admitted with
  | zero => exact ⟨admitted, .nil admitted⟩
  | succ limit ih =>
    by_cases idle : rules.filterMap (license? c admitted) = []
    · rw [passes_of_nil idle]
      exact ⟨admitted, .nil admitted⟩
    · rw [passes_of_ne_nil idle, List.zipIdx_cons, List.map_cons]
      have own := licenses_sublist c admitted rules
      have later : ∀ rule ∈ waiting (grown c admitted rules) rules,
          rule.left ∉ grown c admitted rules := by simp [waiting]
      obtain ⟨last, rest⟩ := ih (number + 1) (grown c admitted rules)
        (ascending.sublist (List.filter_sublist.map Rule.left)) later
      refine ⟨last, .cons (ascending.sublist own) ?_ rfl rest⟩
      intro name mem
      obtain ⟨rule, listed, rfl⟩ := List.mem_map.mp (own.subset mem)
      exact absent rule listed

theorem shown_of_ne_nil {passes : List Pass} (h : passes ≠ []) : shown passes = passes := by
  cases passes with
  | nil => exact absurd rfl h
  | cons => rfl

end Saturation

namespace Reachability

variable {g : Grammar}

theorem newIn_ascending (alternatives : List Alternative) (reached : NameSet) :
    (newIn alternatives reached).Pairwise (· < ·) :=
  NameSet.toList_ascending _

theorem accounts_expansions (limit : Nat) (reached pending : NameSet) :
    Accounts reached ((expansions g limit reached pending).map (growth g))
      (final reached (expansions g limit reached pending)) := by
  induction limit generalizing reached pending with
  | zero => exact .nil reached
  | succ limit ih =>
    cases list : pending.toList with
    | nil =>
      rw [expansions, list]
      exact .nil reached
    | cons left others =>
      rw [expansions_of_cons list, List.map_cons, final_cons]
      refine .cons (newIn_ascending _ _) ?_ rfl (ih _ _)
      intro name mem
      exact (mem_newIn.mp mem).2

end Reachability

namespace UnitClosure

/-- Links that grow a closure: each is a unit production from a member to a variable that
is none. -/
inductive Grows (g : Grammar) : NameSet → List UnitLink → NameSet → Prop where
  | nil (closure : NameSet) : Grows g closure [] closure
  | cons {closure last : NameSet} {link : UnitLink} {later : List UnitLink}
      (source_mem : link.source ∈ closure)
      (unit : [Symbol.variable link.target] ∈ g.alternatives link.source)
      (fresh : link.target ∉ closure) (grown : link.closure = closure.insert link.target)
      (rest : Grows g link.closure later last) : Grows g closure (link :: later) last

/-- What one expansion adds to a closure. -/
def added (g : Grammar) (source : String) (closure : NameSet) : List String :=
  (links source ((g.alternatives source).filterMap Alternative.unit?) closure).map UnitLink.target

variable {g : Grammar} {closure last pending : NameSet} {source : String}
  {targets : List String} {earlier later : List UnitLink}

theorem Grows.append {middle : NameSet} (h : Grows g closure earlier middle)
    (h' : Grows g middle later last) : Grows g closure (earlier ++ later) last := by
  induction h with
  | nil => exact h'
  | cons source_mem unit fresh grown _ ih => exact .cons source_mem unit fresh grown (ih h')

/-- Of the targets of one source those that are new are linked, each once. -/
theorem grows_links (source_mem : source ∈ closure)
    (units : ∀ target ∈ targets, [Symbol.variable target] ∈ g.alternatives source) :
    Grows g closure (links source targets closure)
      (closure.insertMany ((links source targets closure).map UnitLink.target)) := by
  induction targets generalizing closure with
  | nil => simpa [links] using Grows.nil closure
  | cons target targets ih =>
    obtain ⟨unit, units⟩ := List.forall_mem_cons.mp units
    rw [links]
    split
    · exact ih source_mem units
    · next new =>
      rw [Std.ExtTreeSet.contains_iff_mem] at new
      have inside : source ∈ closure.insert target :=
        Std.ExtTreeSet.mem_insert.mpr (.inr source_mem)
      rw [List.map_cons, Std.ExtTreeSet.insertMany_cons]
      exact .cons source_mem unit new rfl (ih inside units)

/-- Pending variables are members, so all that the worklist links grows the closure. -/
theorem grows_explore (limit : Nat) (inside : ∀ name ∈ pending, name ∈ closure) :
    ∃ last, Grows g closure (explore g limit closure pending) last := by
  induction limit generalizing closure pending with
  | zero => exact ⟨closure, .nil closure⟩
  | succ limit ih =>
    rw [explore]
    split
    · exact ⟨closure, .nil closure⟩
    · next source others list =>
      have mem : source ∈ pending := Std.ExtTreeSet.mem_toList.mp (list ▸ List.mem_cons_self)
      have units : ∀ target ∈ (g.alternatives source).filterMap Alternative.unit?,
          [Symbol.variable target] ∈ g.alternatives source := by
        intro target listed
        obtain ⟨alternative, own, unit⟩ := List.mem_filterMap.mp listed
        exact Alternative.unit?_eq_some_iff.mp unit ▸ own
      have inside' : ∀ name ∈ (pending.erase source).insertMany (added g source closure),
          name ∈ closure.insertMany (added g source closure) := by
        intro name waiting
        rw [Std.ExtTreeSet.mem_insertMany_list] at waiting ⊢
        exact waiting.imp (fun old => inside name (Std.ExtTreeSet.mem_of_mem_erase old)) id
      obtain ⟨last, rest⟩ := ih inside'
      exact ⟨last, (grows_links (inside source mem) units).append rest⟩

theorem Grows.accounts (h : Grows g closure later last) :
    Accounts closure (later.map growth) last := by
  induction h with
  | nil closure => exact .nil closure
  | cons _ _ fresh grown _ ih =>
    rw [List.map_cons]
    refine .cons (by simp [growth]) (by simpa [growth] using fresh) ?_ ih
    simp [growth, grown]

theorem Grows.last_eq (h : Grows g closure later last) :
    last = closure.insertMany (later.map UnitLink.target) := by
  rw [h.accounts.last_eq, List.flatMap_map, List.map_eq_flatMap]
  rfl

/-- Every link leads from what is there before it to something new. -/
theorem Grows.at_index (h : Grows g closure later last) {index : Nat} {link : UnitLink}
    (own : later[index]? = some link) :
    [Symbol.variable link.target] ∈ g.alternatives link.source ∧
      link.source ∈ closure.insertMany ((later.take index).map UnitLink.target) ∧
      link.target ∉ closure.insertMany ((later.take index).map UnitLink.target) := by
  induction h generalizing index with
  | nil => cases own
  | cons source_mem unit fresh grown _ ih =>
    cases index with
    | zero =>
      rw [List.getElem?_cons_zero, Option.some.injEq] at own
      subst own
      simpa using ⟨unit, source_mem, fresh⟩
    | succ index =>
      rw [List.getElem?_cons_succ] at own
      rw [List.take_succ_cons, List.map_cons, Std.ExtTreeSet.insertMany_cons, ← grown]
      exact ih own

theorem Grows.unit_mem (h : Grows g closure later last) {link : UnitLink} (mem : link ∈ later) :
    [Symbol.variable link.target] ∈ g.alternatives link.source := by
  obtain ⟨index, own⟩ := List.getElem?_of_mem mem
  exact (h.at_index own).1

end UnitClosure

/-- A trace that begins with a single variable. -/
theorem Accounts.begin {growths : List Growth} {last : NameSet} {name : String}
    (growth : Growth) (h : Accounts (NameSet.ofList [name]) growths last)
    (reached : growth.reached = NameSet.ofList [name]) (added : growth.added = [name]) :
    Accounts ∅ (growth :: growths) last := by
  refine .cons ?_ ?_ ?_ (reached ▸ h)
  · simp [added]
  · simp
  · rw [reached, added, NameSet.ofList, Std.ExtTreeSet.ofList_eq_insertMany_empty]

namespace Grammar

variable (g : Grammar)

theorem lefts_sortedRules : g.sortedRules.map Rule.left = g.variableNames := by
  rw [sortedRules, List.map_map, variableNames, ← Std.ExtTreeMap.map_fst_toList_eq_keys]
  rfl

theorem audits_saturate (c : Criterion) :
    Audits c.phase c.phase.label (g.saturate c).trace (g.saturate c).value := by
  by_cases idle : Saturation.run c g = []
  · have value : (g.saturate c).value = ∅ := by simp [saturate, idle]
    have trace : (g.saturate c).trace =
        Trace.ofGrowths c.phase c.phase.label [Saturation.growth c ⟨[], ∅⟩ 1] := by
      simp [saturate, idle, Saturation.shown]
    rw [value, trace]
    exact (Accounts.cons .nil (by simp [Saturation.growth]) (by simp [Saturation.growth])
      (.nil ∅)).audits
  · have ascending : (g.sortedRules.map Rule.left).Pairwise (· < ·) :=
      g.lefts_sortedRules ▸ g.variableNames_ascending
    obtain ⟨last, accounts⟩ :=
      Saturation.accounts_passes c g.sortedRules.length 1 ∅ ascending (by simp)
    have value : (g.saturate c).value = last := by
      rw [← accounts.getLast?_eq]
      simp [saturate, Saturation.run, Saturation.growth, Function.comp_def]
    rw [value, saturate, Saturation.shown_of_ne_nil idle]
    exact accounts.audits

theorem accounts_reachable :
    Accounts ∅ (Reachability.begin g :: (Reachability.run g).map (Reachability.growth g))
      g.reachable.value := by
  have accounts := Reachability.accounts_expansions (g := g) g.table.size
    (NameSet.ofList [g.start]) (NameSet.ofList [g.start])
  exact accounts.begin (Reachability.begin g) rfl rfl

theorem audits_reachable :
    Audits .reachable Phase.reachable.label g.reachable.trace g.reachable.value :=
  g.accounts_reachable.audits

theorem grows_unitClosure (origin : String) :
    UnitClosure.Grows g (NameSet.ofList [origin]) (UnitClosure.run g origin)
      (g.unitClosure origin).value := by
  have inside : ∀ name ∈ NameSet.ofList [origin], name ∈ NameSet.ofList [origin] := fun _ => id
  obtain ⟨last, grows⟩ := UnitClosure.grows_explore (g := g) g.table.size inside
  have value : (g.unitClosure origin).value = last := by
    rw [← grows.accounts.getLast?_eq, List.getLast?_map, Option.map_map]
    rfl
  rw [value]
  exact grows

theorem accounts_unitClosure (origin : String) :
    Accounts (NameSet.ofList [origin]) ((UnitClosure.run g origin).map UnitClosure.growth)
      (g.unitClosure origin).value :=
  (g.grows_unitClosure origin).accounts

theorem audits_unitClosure (origin : String) :
    Audits .unit (UnitClosure.label origin) (g.unitClosure origin).trace
      (g.unitClosure origin).value :=
  ((g.accounts_unitClosure origin).begin (UnitClosure.begin origin) rfl rfl).audits

theorem trace_unitClosures :
    g.unitClosures.trace = g.variableNames.flatMap fun origin => (g.unitClosure origin).trace :=
  List.flatMap_map ..

/-! ## Reductions -/

/-- What the trace of a reduction consists of. -/
structure AuditsReduction (g productive : Grammar) (result : Traced Grammar) (marker : Step) :
    Prop where
  cut : g.restrict g.terminating.value = .ok productive
  trace : result.trace = g.terminating.trace ++ marker :: productive.reachable.trace
  single : result.trace.filter (·.phase = .useless) = [marker]
  snapshot : g.terminating.trace.getLast?.map Step.admitted = some marker.admitted
  explanation : ∃ outside : List String, outside.Pairwise (· < ·) ∧
    (∀ name, name ∈ outside ↔ name ∈ g.variableNames ∧ name ∉ g.terminating.value) ∧
    marker.explanation =
      if outside = [] then "every variable is terminating"
      else "removed non-terminating variables " ++ setNotation outside
  final : productive.reachable.trace.getLast?.map Step.admitted =
    some (setNotation result.value.variableNames)

variable {g} {productive reduced : Grammar}

theorem saturate_trace_ne_nil (c : Criterion) : (g.saturate c).trace ≠ [] := by
  have shown : Saturation.shown (Saturation.run c g) ≠ [] := by
    cases none : Saturation.run c g <;> simp [Saturation.shown]
  simpa [saturate, Trace.ofGrowths] using shown

/-- The last snapshot of a trace that is not empty. -/
theorem getLast?_snapshot {phase : Phase} {label : String} {trace : Trace} {set : NameSet}
    (audits : Audits phase label trace set) (ne : trace ≠ []) :
    trace.getLast?.map Step.admitted = some (setNotation set.toList) := by
  have last := List.getLast?_eq_some_getLast ne
  rw [last, Option.map_some, audits.getLast?_admitted last]

theorem filter_phase_eq_nil {phase : Phase} {label : String} {trace : Trace} {set : NameSet}
    (audits : Audits phase label trace set) (other : phase ≠ .useless) :
    trace.filter (·.phase = .useless) = [] := by
  refine List.filter_eq_nil_iff.mpr ?_
  intro step mem
  simp [audits.phases step mem, other]

/-- The names a transition lists are those of the variables outside the set. -/
theorem explanation_transition (g : Grammar) (set : NameSet) :
    ∃ outside : List String, outside.Pairwise (· < ·) ∧
      (∀ name, name ∈ outside ↔ name ∈ g.variableNames ∧ name ∉ set) ∧
      (g.transition set).explanation =
        if outside = [] then "every variable is terminating"
        else "removed non-terminating variables " ++ setNotation outside := by
  refine ⟨g.variableNames.filter (!set.contains ·), g.variableNames_ascending.filter _, by simp, ?_⟩
  unfold transition
  cases g.variableNames.filter (!set.contains ·) <;> rfl

/-- The variables left by the second cut are those that the trace ends with. -/
theorem variableNames_of_second (hp : productive.WellFormed)
    (second : Restricted productive reduced productive.reachable.value) :
    reduced.variableNames = productive.reachable.value.toList := by
  refine (toList_eq_variableNames fun name => ?_).symm
  rw [second.mem_table_iff, hp.mem_order]
  exact ⟨fun mem => ⟨hp.closed.mem_table_of_mem_reachable mem, mem⟩, And.right⟩

theorem exists_auditsReduction (hg : g.WellFormed) {result : Traced Grammar}
    (reduce : g.eliminateUseless = .ok result) :
    ∃ productive marker, AuditsReduction g productive result marker := by
  obtain ⟨productive, start, cut, cut', trace⟩ := exists_stages reduce
  have first := (supports_terminating start).restricted hg cut
  have second := (supports_reachable first.wellFormed).restricted first.wellFormed cut'
  have before : Audits .terminating Phase.terminating.label g.terminating.trace
      g.terminating.value := g.audits_saturate .terminating
  have after := productive.audits_reachable
  refine ⟨productive, g.transition g.terminating.value, cut, trace, ?_, ?_,
    explanation_transition g _, ?_⟩
  · rw [trace, List.filter_append, List.filter_cons_of_pos (by simp [transition]),
      filter_phase_eq_nil before (by decide), filter_phase_eq_nil after (by decide),
      List.nil_append]
  · exact getLast?_snapshot before (saturate_trace_ne_nil .terminating)
  · rw [variableNames_of_second first.wellFormed second]
    exact getLast?_snapshot after (by simp [reachable, Trace.ofGrowths])

/-- Traces can be checked against what the analyses return, and the trace of a reduction
against the grammar that it makes. -/
theorem traces_audit (h : g.Arises) :
    Audits .terminating "TERM" g.terminating.trace g.terminating.value ∧
    Audits .nullable "NULL" g.nullable.trace g.nullable.value ∧
    Audits .reachable "REACH" g.reachable.trace g.reachable.value ∧
    (∀ origin, Audits .unit ("UNIT(" ++ origin ++ ")") (g.unitClosure origin).trace
      (g.unitClosure origin).value) ∧
    ∀ result, g.eliminateUseless = .ok result →
      ∃ productive marker, AuditsReduction g productive result marker :=
  ⟨g.audits_saturate .terminating, g.audits_saturate .nullable, g.audits_reachable,
    g.audits_unitClosure, fun _ reduce => exists_auditsReduction h.wellFormed reduce⟩

/-- The variable `A` derives no string, and `B` is out of reach without it. -/
theorem traces_audit_of_cycles :
    ∃ g result, ofText cycles = .ok g ∧ g.eliminateUseless = .ok result ∧
      Trace.admitted g.terminating.trace = g.terminating.value ∧
      ∃ productive marker, AuditsReduction g productive result marker ∧
        productive.reachable.trace.getLast?.map Step.admitted = some (setNotation ["S"]) := by
  obtain ⟨g, result, read, reduce, -, names, -⟩ := ofText_cycles
  obtain ⟨terminating, -, -, -, reductions⟩ := traces_audit (.built (.text read))
  obtain ⟨productive, marker, audits⟩ := reductions result reduce
  exact ⟨g, result, read, reduce, terminating.union, productive, marker, audits,
    names ▸ audits.final⟩

end Grammar

end GrammarFixpoint
