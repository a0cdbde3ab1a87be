import GrammarFixpoint.Proofs.Audit
import GrammarFixpoint.Proofs.Printing
import Mathlib.Data.List.Nodup

/-! The order of expansions. Reachability is told with two sets, the variables reached and
those expanded so far: the smallest one that is reached and not expanded comes next, also
where it was exposed a moment ago and is smaller than all that wait, and the loop ends when
nothing waits. The worklist keeps only what waits, which is the difference of the two sets,
and its limit is never what stops it. So a run expands every variable it reaches, each of
them once, and the trace has a step for each after the first. The text of such a step names
the variable it is about: a name holds no space, and it ends at the first one. -/

namespace GrammarFixpoint

namespace Reachability

/-- An expansion of the smallest variable that is reached and not expanded yet. -/
structure Next (g : Grammar) (reached : NameSet) (expanded : List String) (next : Expansion) :
    Prop where
  mem : next.left ∈ reached
  fresh : next.left ∉ expanded
  least : ∀ name ∈ reached, name ∉ expanded → next.left ≤ name
  exposed : next.exposed = newIn (g.alternatives next.left) reached
  reached : next.reached = widened g next.left reached

/-- The loop without a limit. It ends when all that is reached is expanded. -/
inductive Runs (g : Grammar) : NameSet → List String → List Expansion → Prop where
  | done {reached : NameSet} {expanded : List String} (all : ∀ name ∈ reached, name ∈ expanded) :
      Runs g reached expanded []
  | expand {reached : NameSet} {expanded : List String} {next : Expansion}
      {later : List Expansion} (step : Next g reached expanded next)
      (rest : Runs g next.reached (expanded ++ [next.left]) later) :
      Runs g reached expanded (next :: later)

variable {g : Grammar} {reached pending : NameSet} {expanded : List String}

theorem inside_widened (inside : ∀ name ∈ expanded, name ∈ reached) {left : String}
    (mem : left ∈ reached) : ∀ name ∈ expanded ++ [left], name ∈ widened g left reached := by
  intro name done
  refine mem_widened.mpr (.inl ?_)
  rcases List.mem_append.mp done with old | new
  · exact inside name old
  · exact List.mem_singleton.mp new ▸ mem

/-- The worklist holds what is reached and not expanded. -/
def Waits (reached : NameSet) (expanded : List String) (pending : NameSet) : Prop :=
  ∀ name, name ∈ pending ↔ name ∈ reached ∧ name ∉ expanded

theorem Waits.next (waits : Waits reached expanded pending) {left : String}
    {others : List String} (list : pending.toList = left :: others) :
    Next g reached expanded
      ⟨left, newIn (g.alternatives left) reached, widened g left reached⟩ := by
  have mem : left ∈ pending := Std.ExtTreeSet.mem_toList.mp (list ▸ List.mem_cons_self)
  refine ⟨((waits left).mp mem).1, ((waits left).mp mem).2, ?_, rfl, rfl⟩
  intro name inside new
  have listed : name ∈ left :: others :=
    list ▸ Std.ExtTreeSet.mem_toList.mpr ((waits name).mpr ⟨inside, new⟩)
  have ascending := NameSet.toList_ascending pending
  rw [list, List.pairwise_cons] at ascending
  rcases List.mem_cons.mp listed with rfl | later
  · exact String.le_refl _
  · exact Std.le_of_lt (ascending.1 name later)

theorem Waits.resumed (waits : Waits reached expanded pending)
    (inside : ∀ name ∈ expanded, name ∈ reached) {left : String} (mem : left ∈ reached) :
    Waits (widened g left reached) (expanded ++ [left]) (resumed g left reached pending) := by
  intro name
  rw [mem_resumed, mem_widened, waits, List.mem_append, List.mem_singleton, not_or]
  constructor
  · rintro (⟨other, old, new⟩ | ⟨exposed, new⟩)
    · exact ⟨.inl old, new, other⟩
    · exact ⟨.inr exposed, fun done => new (inside name done), fun same => new (same ▸ mem)⟩
  · rintro ⟨old | exposed, new, other⟩
    · exact .inl ⟨other, old, new⟩
    · by_cases old : name ∈ reached
      · exact .inl ⟨other, old, new⟩
      · exact .inr ⟨exposed, old⟩

theorem Waits.done (waits : Waits reached expanded pending) (idle : pending = ∅) :
    Runs g reached expanded [] := by
  refine .done fun name mem => Decidable.byContradiction fun new => ?_
  have pends := (waits name).mpr ⟨mem, new⟩
  simp [idle] at pends

/-- A limit that counts the variables not expanded yet lets the loop come to its end. -/
theorem runs_expansions (hg : g.Closed) {limit : Nat} (h : Explored g reached pending)
    (inside : ∀ name ∈ expanded, name ∈ reached) (waits : Waits reached expanded pending)
    (enough : (unexpanded g reached pending).length ≤ limit) :
    Runs g reached expanded (expansions g limit reached pending) := by
  induction limit generalizing reached pending expanded with
  | zero => exact waits.done (h.pending_eq_empty hg (List.length_eq_zero_iff.mp (by omega)))
  | succ limit ih =>
    cases list : pending.toList with
    | nil =>
      rw [expansions, list]
      exact waits.done (Std.ExtTreeSet.toList_eq_nil_iff.mp list)
    | cons left others =>
      have next := waits.next (g := g) list
      have mem : left ∈ pending := Std.ExtTreeSet.mem_toList.mp (list ▸ List.mem_cons_self)
      have fewer := length_unexpanded_lt h mem (h.mem_table hg mem)
      rw [expansions_of_cons list]
      exact .expand next (ih (h.step mem) (inside_widened inside next.mem)
        (waits.resumed inside next.mem) (Nat.le_of_lt_succ (Nat.lt_of_lt_of_le fewer enough)))

theorem runs_run (hg : g.Closed) : Runs g (NameSet.ofList [g.start]) [] (run g) := by
  refine runs_expansions hg (explored_start g) (by simp) (fun name => by simp) ?_
  rw [← Grammar.length_variableNames]
  exact List.length_filter_le ..

theorem final_take_succ (reached : NameSet) {later : List Expansion} {index : Nat}
    {own : Expansion} (h : later[index]? = some own) :
    final reached (later.take (index + 1)) = own.reached := by
  simp [final, List.take_add_one, h]

namespace Runs

variable {later : List Expansion}

/-- Every expansion is the next one after those before it. -/
theorem next (runs : Runs g reached expanded later) {index : Nat} {own : Expansion}
    (h : later[index]? = some own) :
    Next g (final reached (later.take index)) (expanded ++ (later.take index).map Expansion.left)
      own := by
  induction runs generalizing index with
  | done => cases h
  | expand step _ ih =>
    cases index with
    | zero =>
      rw [List.getElem?_cons_zero, Option.some.injEq] at h
      subst h
      simpa [final] using step
    | succ index =>
      have next := ih h
      rwa [List.append_assoc, List.singleton_append, ← List.map_cons, ← final_cons,
        ← List.take_succ_cons] at next

/-- What a run ends with is what it has expanded. -/
theorem mem_expanded_iff (runs : Runs g reached expanded later)
    (inside : ∀ name ∈ expanded, name ∈ reached) (name : String) :
    name ∈ expanded ++ later.map Expansion.left ↔ name ∈ final reached later := by
  induction runs with
  | done all =>
    rw [List.map_nil, List.append_nil]
    exact ⟨inside name, all name⟩
  | @expand reached expanded next later step _ ih =>
    have inside' : ∀ name ∈ expanded ++ [next.left], name ∈ next.reached := by
      intro name done
      rw [step.reached]
      exact inside_widened inside step.mem name done
    rw [final_cons, ← ih inside', List.append_assoc, List.singleton_append, List.map_cons]

/-- No variable is expanded twice. -/
theorem nodup (runs : Runs g reached expanded later) (once : expanded.Nodup) :
    (expanded ++ later.map Expansion.left).Nodup := by
  induction runs with
  | done => simpa using once
  | expand step _ ih =>
    have all := ih (List.nodup_append_comm.mp (List.nodup_cons.mpr ⟨step.fresh, once⟩))
    rwa [List.append_assoc, List.singleton_append, ← List.map_cons] at all

end Runs

/-! ## Explanations -/

/-- What is written of an expansion that exposes nothing. -/
def barrenText (left : String) : String := "expanded " ++ left ++ ": no new variables"

/-- What is written of any other: the whole rule. -/
def ruleText (rule : Rule) : String := "expanded " ++ rule.text

theorem explain_eq (g : Grammar) (own : Expansion) :
    explain g own = if own.exposed = [] then barrenText own.left
      else ruleText ⟨own.left, g.alternatives own.left⟩ := by
  unfold explain
  split
  · next barren => rw [if_pos barren, barrenText]
  · next fruitful => rw [if_neg fruitful, ruleText]

theorem barrenText_inj {left other : String} : barrenText left = barrenText other ↔ left = other := by
  rw [barrenText, barrenText, String.append_left_inj, String.append_right_inj]

/-- Rules of the same text are rules of the same variable. -/
theorem left_eq_of_ruleText {rule other : Rule} (free : ' ' ∉ rule.left.toList)
    (free' : ' ' ∉ other.left.toList) (eq : ruleText rule = ruleText other) :
    rule.left = other.left := by
  rw [ruleText, ruleText, String.append_right_inj, Rule.text, Rule.text, Text.append_arrow_eq,
    Text.append_arrow_eq] at eq
  exact (Text.eq_of_append_space free free' eq).1

/-- Behind the variable there is an arrow in one text and not in the other. -/
theorem barrenText_ne_ruleText {left : String} {rule : Rule} (free : ' ' ∉ left.toList)
    (free' : ' ' ∉ rule.left.toList) : barrenText left ≠ ruleText rule := by
  intro eq
  have colon : ": no new variables" = ":" ++ (" " ++ "no new variables") := by decide
  rw [barrenText, ruleText, String.append_assoc, String.append_right_inj, colon,
    ← String.append_assoc, Rule.text, Text.append_arrow_eq] at eq
  have free_colon : ' ' ∉ (left ++ ":").toList := by simp [free]
  have behind := (Text.eq_of_append_space free_colon free' eq).2
  have heads := congrArg (fun text : String => text.toList.head?) behind
  simp at heads

end Reachability

/-- The step expands a variable: the smallest of the set before that is not expanded yet.
Its text tells which variable this is, and shows the whole rule with every alternative where
it exposes something new. -/
structure ExpandsNext (g : Grammar) (before : NameSet) (expanded : List String) (left : String)
    (step : Step) : Prop where
  mem : left ∈ before
  fresh : left ∉ expanded
  least : ∀ name ∈ before, name ∉ expanded → left ≤ name
  ascending : step.newVariables.Pairwise (· < ·)
  exposed : ∀ name, name ∈ step.newVariables ↔
    (∃ alternative ∈ g.alternatives left, Symbol.variable name ∈ alternative) ∧ name ∉ before
  barren_iff : ∀ other ∈ g.variableNames,
    (step.explanation = "expanded " ++ other ++ ": no new variables" ↔
      other = left ∧ step.newVariables = [])
  rule_iff : ∀ other ∈ g.variableNames,
    (step.explanation = "expanded " ++ (Rule.mk other (g.alternatives other)).text ↔
      other = left ∧ step.newVariables ≠ [])
  shows_rule : step.newVariables ≠ [] → step.explanation =
    "expanded " ++ left ++ " -> " ++ " | ".intercalate ((g.alternatives left).map Alternative.spelled)

/-- The steps behind the first expand the variables of a set in an order, one each. -/
structure ExpandsInOrder (g : Grammar) (steps : Trace) (result : NameSet) (order : List String) :
    Prop where
  length : steps.length = 1 + result.size
  first : ∃ step, steps[0]? = some step ∧ step.newVariables = [g.start] ∧
    step.explanation = "start symbol"
  nodup : order.Nodup
  mem_iff : ∀ name, name ∈ order ↔ name ∈ result
  snapshots : ∀ index step, steps[index]? = some step →
    step.admitted = setNotation (Trace.admitted (steps.take (index + 1))).toList
  next : ∀ index step, steps[index + 1]? = some step → ∃ left, order[index]? = some left ∧
    ExpandsNext g (Trace.admitted (steps.take (index + 1))) (order.take index) left step

namespace Reachability

variable {g : Grammar} {before : NameSet} {expanded : List String}

/-- The step that is written down for the next expansion. -/
theorem Next.expandsNext (hg : g.WellFormed) {own : Expansion}
    (next : Next g before expanded own) (known : own.left ∈ g.table) (number : Nat) :
    ExpandsNext g before expanded own.left
      ((growth g own).step .reachable Phase.reachable.label number) where
  mem := next.mem
  fresh := next.fresh
  least := next.least
  ascending := by
    show own.exposed.Pairwise (· < ·)
    rw [next.exposed]
    exact newIn_ascending ..
  exposed := by
    intro name
    show name ∈ own.exposed ↔ _
    rw [next.exposed, mem_newIn]
  barren_iff := by
    intro other mem
    have free := hg.space_not_mem known
    have free' := hg.space_not_mem (Grammar.mem_variableNames.mp mem)
    show explain g own = barrenText other ↔ other = own.left ∧ own.exposed = []
    rw [explain_eq]
    split
    · next barren => rw [barrenText_inj, eq_comm, and_iff_left barren]
    · next fruitful =>
      constructor
      · exact fun eq => absurd eq.symm (barrenText_ne_ruleText free' free)
      · exact fun h => absurd h.2 fruitful
  rule_iff := by
    intro other mem
    have free := hg.space_not_mem known
    have free' := hg.space_not_mem (Grammar.mem_variableNames.mp mem)
    show explain g own = ruleText ⟨other, g.alternatives other⟩ ↔
      other = own.left ∧ own.exposed ≠ []
    rw [explain_eq]
    split
    · next barren =>
      constructor
      · exact fun eq => absurd eq (barrenText_ne_ruleText free free')
      · exact fun h => absurd barren h.2
    · next fruitful =>
      refine ⟨fun eq => ⟨(left_eq_of_ruleText free free' eq).symm, fruitful⟩, fun h => ?_⟩
      rw [h.1]
  shows_rule := by
    intro fruitful
    have exposes : own.exposed ≠ [] := fruitful
    have texts : (g.alternatives own.left).map Alternative.text =
        (g.alternatives own.left).map Alternative.spelled :=
      List.map_congr_left fun alternative _ => alternative.text_eq_spelled
    show explain g own = _
    rw [explain_eq, if_neg exposes, ruleText, Rule.text, texts, ← String.append_assoc,
      ← String.append_assoc]

/-- The set before a step is what the expansions before it end with. -/
theorem admitted_take {index : Nat} {own : Expansion} (h : (run g)[index]? = some own) :
    Trace.admitted (g.reachable.trace.take (index + 1)) =
      final (NameSet.ofList [g.start]) ((run g).take index) := by
  rw [Grammar.reachable, Trace.admitted_take]
  cases index with
  | zero =>
    have first : (begin g :: (run g).map (growth g))[0]? = some (begin g) := List.getElem?_cons_zero
    rw [← g.accounts_reachable.reached_eq 0 first]
    rfl
  | succ index =>
    have inside := (List.getElem?_eq_some_iff.mp h).1
    obtain ⟨earlier, at_index⟩ : ∃ earlier, (run g)[index]? = some earlier :=
      ⟨_, List.getElem?_eq_getElem (by omega)⟩
    have shown : (begin g :: (run g).map (growth g))[index + 1]? = some (growth g earlier) := by
      rw [List.getElem?_cons_succ, List.getElem?_map, at_index]
      rfl
    rw [final_take_succ _ at_index, ← g.accounts_reachable.reached_eq (index + 1) shown]
    rfl

end Reachability

namespace Grammar

variable {g : Grammar}

/-- A run expands what it reaches. -/
theorem Closed.mem_expanded_iff (hg : g.Closed) (name : String) :
    name ∈ (Reachability.run g).map Expansion.left ↔ name ∈ g.reachable.value :=
  (Reachability.runs_run hg).mem_expanded_iff (by simp) name

theorem expandsInOrder_reachable (hg : g.WellFormed) :
    ExpandsInOrder g g.reachable.trace g.reachable.value
      ((Reachability.run g).map Expansion.left) := by
  have runs := Reachability.runs_run hg.closed
  have once : ((Reachability.run g).map Expansion.left).Nodup := runs.nodup .nil
  have mem_iff := hg.closed.mem_expanded_iff
  refine ⟨?_, ⟨_, rfl, rfl, rfl⟩, once, mem_iff, g.audits_reachable.snapshots, ?_⟩
  · rw [← NameSet.length_eq_size once mem_iff, List.length_map, reachable, Trace.length_ofGrowths,
      List.length_cons, List.length_map, Nat.add_comm]
  · intro index step h
    obtain ⟨own, at_index, rfl⟩ := Trace.exists_of_later_step h
    have next := runs.next at_index
    rw [List.nil_append, ← Reachability.admitted_take at_index, List.map_take] at next
    have known := (mem_iff own.left).mp (List.mem_map_of_mem (List.mem_of_getElem? at_index))
    exact ⟨own.left, by rw [List.getElem?_map, at_index]; rfl,
      next.expandsNext hg (hg.closed.mem_table_of_mem_reachable known) _⟩

/-- The loop of reachability comes to its end without a limit, and its trace shows it expand
each reached variable in one step, always the smallest that is left. -/
theorem reachable_expands_in_order (h : g.Arises) :
    Reachability.Runs g (NameSet.ofList [g.start]) [] (Reachability.run g) ∧
      ExpandsInOrder g g.reachable.trace g.reachable.value
        ((Reachability.run g).map Expansion.left) :=
  ⟨Reachability.runs_run h.wellFormed.closed, expandsInOrder_reachable h.wellFormed⟩

/-- `C` is reached first, but `B` is smaller and exposes the still smaller `A`. -/
theorem reachable_expands_in_order_of_overtaken :
    ∃ g, ofText "S -> C B | S\nB -> A\nC -> c\nA -> a B\nX -> S" = .ok g ∧
      g.reachable.value.size = 4 ∧
      ExpandsInOrder g g.reachable.trace g.reachable.value ["S", "B", "A", "C"] := by
  have shown : ((ofText "S -> C B | S\nB -> A\nC -> c\nA -> a B\nX -> S").toOption.map fun g =>
      ((Reachability.run g).map Expansion.left, g.reachable.trace.length)) =
      some (["S", "B", "A", "C"], 5) := by decide
  obtain ⟨g, read, shown⟩ := exists_ok_of_shown shown
  obtain ⟨order, steps⟩ := Prod.mk.inj shown
  obtain ⟨-, expands⟩ := reachable_expands_in_order (.built (.text read))
  rw [order] at expands
  have size := expands.length
  exact ⟨g, read, by omega, expands⟩

end Grammar

end GrammarFixpoint
