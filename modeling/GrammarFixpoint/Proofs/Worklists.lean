import GrammarFixpoint.Proofs.Audit

/-! What the two worklists find. Reachability finds the variables of sentential forms,
for a path of variables is what a derivation leaves behind. A unit closure needs no
second argument: the worklist that follows unit alternatives makes the same expansions
as reachability in the part of the grammar that has no other alternatives and starts
from the variable, and a path in that part is a chain. It only writes its links down one
by one where reachability writes down a whole expansion. -/

namespace GrammarFixpoint

namespace Grammar

/-- The grammar with its unit alternatives alone, and a start symbol of choice. -/
def unitPart (g : Grammar) (origin : String) : Grammar where
  start := origin
  order := g.order
  table := g.table.map fun _ alternatives => alternatives.filter (·.unit?.isSome)

variable {g : Grammar} {origin first last : String}

theorem alternatives_unitPart (left : String) :
    (g.unitPart origin).alternatives left = (g.alternatives left).filter (·.unit?.isSome) := by
  rw [alternatives, alternatives, Std.ExtTreeMap.getD_eq_getD_getElem?,
    Std.ExtTreeMap.getD_eq_getD_getElem?, unitPart, Std.ExtTreeMap.getElem?_map]
  cases g.table[left]? <;> rfl

/-- The part exposes what is a whole alternative. -/
theorem exposes_unitPart {left name : String} :
    (g.unitPart origin).Exposes left name ↔ [.variable name] ∈ g.alternatives left := by
  simp only [Exposes, alternatives_unitPart, List.mem_filter, Option.isSome_iff_exists,
    Alternative.unit?_eq_some_iff]
  constructor
  · intro h
    obtain ⟨alternative, ⟨own, target, rfl⟩, occurs⟩ := h
    rw [Symbol.variable.inj (List.mem_singleton.mp occurs)]
    exact own
  · intro own
    exact ⟨_, ⟨own, name, rfl⟩, List.mem_cons_self⟩

theorem UnitChain.head {middle : String} (step : [Symbol.variable middle] ∈ g.alternatives first)
    (chain : g.UnitChain middle last) : g.UnitChain first last := by
  induction chain with
  | refl => exact .tail (.refl first) step
  | tail _ link ih => exact .tail ih link

theorem reaches_unitPart : (g.unitPart origin).Reaches first last ↔ g.UnitChain first last := by
  constructor
  · intro path
    induction path with
    | refl => exact .refl _
    | head step _ ih => exact .head (exposes_unitPart.mp step) ih
  · intro chain
    induction chain with
    | refl => exact .refl _
    | tail _ link ih => exact ih.tail (exposes_unitPart.mpr link)

theorem mem_table_unitPart {left : String} : left ∈ (g.unitPart origin).table ↔ left ∈ g.table :=
  Std.ExtTreeMap.mem_map

theorem WellFormed.closed_unitPart (hg : g.WellFormed) (known : origin ∈ g.table) :
    (g.unitPart origin).Closed where
  start_mem := mem_table_unitPart.mpr known
  variable_mem := by
    intro left alternative name own occurs
    rw [alternatives_unitPart, List.mem_filter] at own
    exact mem_table_unitPart.mpr (hg.variable_mem own.1 occurs)

end Grammar

namespace UnitClosure

variable {g : Grammar} {origin : String}

theorem mem_targets_links {source : String} {targets : List String} {closure : NameSet}
    {name : String} :
    name ∈ (links source targets closure).map UnitLink.target ↔
      name ∈ targets ∧ name ∉ closure := by
  induction targets generalizing closure with
  | nil => simp [links]
  | cons target targets ih =>
    rw [links, List.mem_cons]
    split
    · next old =>
      rw [Std.ExtTreeSet.contains_iff_mem] at old
      rw [ih]
      by_cases same : name = target
      · simp [same, old]
      · simp [same]
    · next new =>
      rw [Std.ExtTreeSet.contains_iff_mem] at new
      rw [List.map_cons, List.mem_cons, ih, Std.ExtTreeSet.mem_insert]
      by_cases same : name = target
      · simp [same, new]
      · simp [same, Ne.symm same]

theorem mem_added (origin : String) {source name : String} {closure : NameSet} :
    name ∈ added g source closure ↔
      (g.unitPart origin).Exposes source name ∧ name ∉ closure := by
  rw [added, mem_targets_links, Grammar.exposes_unitPart, List.mem_filterMap]
  simp only [Alternative.unit?_eq_some_iff, exists_eq_right]

theorem insertMany_added (origin source : String) (closure : NameSet) :
    closure.insertMany (added g source closure) =
      Reachability.widened (g.unitPart origin) source closure := by
  apply Std.ExtTreeSet.ext_mem
  intro name
  rw [Std.ExtTreeSet.mem_insertMany_list, List.contains_iff_mem, mem_added origin,
    Reachability.mem_widened]
  by_cases old : name ∈ closure <;> simp [old]

theorem erase_insertMany_added (origin source : String) (closure pending : NameSet) :
    (pending.erase source).insertMany (added g source closure) =
      Reachability.resumed (g.unitPart origin) source closure pending := by
  apply Std.ExtTreeSet.ext_mem
  intro name
  rw [Std.ExtTreeSet.mem_insertMany_list, List.contains_iff_mem, mem_added origin,
    Reachability.mem_resumed, Std.ExtTreeSet.mem_erase, ne_eq, Std.LawfulEqOrd.compare_eq_iff_eq,
    eq_comm (a := source)]

theorem explore_of_cons {limit : Nat} {closure pending : NameSet} {source : String}
    {others : List String} (h : pending.toList = source :: others) :
    (explore g (limit + 1) closure pending).map UnitLink.target =
      added g source closure ++ (explore g limit (closure.insertMany (added g source closure))
        ((pending.erase source).insertMany (added g source closure))).map UnitLink.target := by
  rw [explore, h, List.map_append]
  rfl

/-- Expansion by expansion, the links add what reachability in the unit part exposes. -/
theorem final_expansions_unitPart (limit : Nat) (closure pending : NameSet) :
    Reachability.final closure
        (Reachability.expansions (g.unitPart origin) limit closure pending) =
      closure.insertMany ((explore g limit closure pending).map UnitLink.target) := by
  -- Both worklists hold the same sets throughout, so they expand the same variable next
  -- and run out of work or of limit together.
  induction limit generalizing closure pending with
  | zero => simp [Reachability.expansions, Reachability.final, explore]
  | succ limit ih =>
    cases list : pending.toList with
    | nil => simp [Reachability.expansions, Reachability.final, explore, list]
    | cons source others =>
      rw [Reachability.expansions_of_cons list, Reachability.final_cons, ih, explore_of_cons list,
        Std.ExtTreeSet.insertMany_append, insertMany_added origin, erase_insertMany_added origin]

end UnitClosure

namespace Grammar

variable {g : Grammar}

/-- A unit closure is what is in reach by unit alternatives. -/
theorem unitClosure_eq_reachable (g : Grammar) (origin : String) :
    (g.unitClosure origin).value = (g.unitPart origin).reachable.value := by
  have size : (g.unitPart origin).table.size = g.table.size := Std.ExtTreeMap.size_map
  have found : (g.unitPart origin).reachable.value =
      Reachability.final (NameSet.ofList [origin])
        (Reachability.expansions (g.unitPart origin) (g.unitPart origin).table.size
          (NameSet.ofList [origin]) (NameSet.ofList [origin])) := rfl
  rw [found, size, UnitClosure.final_expansions_unitPart, (g.grows_unitClosure origin).last_eq,
    UnitClosure.run]

theorem mem_unitClosure_iff (hg : g.WellFormed) {origin name : String} (known : origin ∈ g.table) :
    name ∈ (g.unitClosure origin).value ↔ g.UnitChain origin name := by
  rw [unitClosure_eq_reachable, mem_reachable_iff (hg.closed_unitPart known)]
  exact reaches_unitPart

theorem UnitChain.mem_table (hg : g.WellFormed) {first last : String}
    (chain : g.UnitChain first last) (known : first ∈ g.table) : last ∈ g.table := by
  cases chain with
  | refl => exact known
  | tail _ link => exact hg.variable_mem link List.mem_cons_self

theorem WellFormed.mem_table_of_mem_unitClosure (hg : g.WellFormed) {origin name : String}
    (known : origin ∈ g.table) (mem : name ∈ (g.unitClosure origin).value) : name ∈ g.table :=
  ((mem_unitClosure_iff hg known).mp mem).mem_table hg known

/-! ## The two analyses -/

/-- A variable is reachable if and only if it stands in a form that the start symbol
derives. -/
theorem reachable_iff_derives (h : g.Arises) (name : String) :
    name ∈ g.reachable.value ↔ name ∈ g.variableNames ∧
      ∃ before after : List Symbol,
        g.Derives [.variable g.start] (before ++ .variable name :: after) := by
  have hg := h.wellFormed
  rw [mem_reachable_iff hg.closed, ← reaches_iff_derives, mem_variableNames]
  exact ⟨fun path => ⟨path.mem_table hg.closed hg.start_mem, path⟩, And.right⟩

/-- A cycle of unit productions, with a variable that leads into it but is out of reach. -/
def detached : String := "S -> a B | B\nB -> A | b | b A\nA -> S\nX -> S"

theorem reachable_iff_derives_of_detached :
    ∃ g, ofText detached = .ok g ∧
      (∃ before after, g.Derives [.variable g.start] (before ++ .variable "A" :: after)) ∧
      ¬ ∃ before after, g.Derives [.variable g.start] (before ++ .variable "X" :: after) := by
  have shown : ((ofText detached).toOption.map fun g =>
      (g.reachable.value.toList, g.variableNames)) =
      some (["A", "B", "S"], ["A", "B", "S", "X"]) := by decide
  obtain ⟨g, read, shown⟩ := exists_ok_of_shown shown
  obtain ⟨reached, names⟩ := Prod.mk.inj shown
  have found := reachable_iff_derives (.built (.text read))
  simp only [← Std.ExtTreeSet.mem_toList, reached, names] at found
  refine ⟨g, read, ((found "A").mp (by decide)).2, fun derived => ?_⟩
  exact absurd ((found "X").mpr ⟨by decide, derived⟩) (by decide)

/-- There is one closure for each variable, in ascending order, and it holds the ends of
the chains of unit productions that begin with the variable. -/
theorem unitClosures_iff_chain (h : g.Arises) :
    g.unitClosures.value.map Prod.fst = g.variableNames ∧ g.variableNames.Pairwise (· < ·) ∧
      ∀ origin ∈ g.variableNames,
        (origin, (g.unitClosure origin).value) ∈ g.unitClosures.value ∧
          ∀ name, name ∈ (g.unitClosure origin).value ↔
            name ∈ g.variableNames ∧ g.UnitChain origin name := by
  have hg := h.wellFormed
  refine ⟨by simp [unitClosures, Function.comp_def], g.variableNames_ascending, ?_⟩
  intro origin mem
  have known := mem_variableNames.mp mem
  refine ⟨?_, fun name => ?_⟩
  · simp only [unitClosures, List.map_map]
    exact List.mem_map.mpr ⟨origin, mem, rfl⟩
  · rw [mem_unitClosure_iff hg known, mem_variableNames]
    exact ⟨fun chain => ⟨chain.mem_table hg known, chain⟩, And.right⟩

theorem unitClosures_iff_chain_of_detached :
    ∃ g, ofText detached = .ok g ∧ g.unitClosures.value.map Prod.fst = ["A", "B", "S", "X"] ∧
      g.UnitChain "X" "A" ∧ ¬ g.UnitChain "A" "X" := by
  have shown : ((ofText detached).toOption.map fun g =>
      (g.variableNames, (g.unitClosure "X").value.toList, (g.unitClosure "A").value.toList)) =
      some (["A", "B", "S", "X"], ["A", "B", "S", "X"], ["A", "B", "S"]) := by decide
  obtain ⟨g, read, shown⟩ := exists_ok_of_shown shown
  simp only [Prod.mk.injEq] at shown
  obtain ⟨names, of_x, of_a⟩ := shown
  obtain ⟨entries, -, chains⟩ := unitClosures_iff_chain (.built (.text read))
  simp only [← Std.ExtTreeSet.mem_toList, names] at entries chains
  have of_x' := (chains "X" (by decide)).2 "A"
  have of_a' := (chains "A" (by decide)).2 "X"
  rw [of_x] at of_x'
  rw [of_a] at of_a'
  refine ⟨g, read, entries, (of_x'.mp (by decide)).2, fun chain => ?_⟩
  exact absurd (of_a'.mpr ⟨by decide, chain⟩) (by decide)

end Grammar

end GrammarFixpoint
