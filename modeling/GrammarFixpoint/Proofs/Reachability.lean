import GrammarFixpoint.Analysis.Reachability
import GrammarFixpoint.Grammar.Derivation
import GrammarFixpoint.Proofs.WellFormed

/-! What reachability finds. A variable is reached along a path on which each
variable occurs in the rule of the one before, and such paths are what
derivations of sentential forms leave behind. The worklist keeps two facts: all
it has reached is on a path, and all that an expanded variable exposes is
reached. Each expansion takes one variable out of those not expanded yet, so the
number of variables is enough to empty the list of the pending ones. -/

namespace GrammarFixpoint

namespace Grammar

/-- The second variable occurs in the rule of the first. -/
def Exposes (g : Grammar) (left name : String) : Prop :=
  ∃ alternative ∈ g.alternatives left, Symbol.variable name ∈ alternative

/-- A path of variables each of which occurs in the rule of the one before. -/
inductive Reaches (g : Grammar) : String → String → Prop where
  | refl (name : String) : Reaches g name name
  | head {first next last : String} :
      g.Exposes first next → Reaches g next last → Reaches g first last

/-- Every variable that a worklist can come upon has a rule. -/
structure Closed (g : Grammar) : Prop where
  start_mem : g.start ∈ g.table
  variable_mem : ∀ {left alternative name}, alternative ∈ g.alternatives left →
    Symbol.variable name ∈ alternative → name ∈ g.table

variable {g : Grammar} {first middle last : String}

theorem WellFormed.closed (hg : g.WellFormed) : g.Closed := ⟨hg.start_mem, hg.variable_mem⟩

theorem Reaches.tail (path : g.Reaches first middle) (h : g.Exposes middle last) :
    g.Reaches first last := by
  induction path with
  | refl => exact .head h (.refl _)
  | head step _ ih => exact .head step (ih h)

theorem Reaches.mem_table (hg : g.Closed) (path : g.Reaches first last)
    (h : first ∈ g.table) : last ∈ g.table := by
  induction path with
  | refl => exact h
  | head step _ ih =>
    obtain ⟨alternative, own, occurs⟩ := step
    exact ih (hg.variable_mem own occurs)

theorem Exposes.derives (h : g.Exposes first last) :
    ∃ before after, g.Derives [.variable first] (before ++ .variable last :: after) := by
  obtain ⟨alternative, own, occurs⟩ := h
  obtain ⟨before, after, rfl⟩ := List.append_of_mem occurs
  exact ⟨before, after, derives_alternative own⟩

/-- The forms along a path grow around its variables. -/
theorem Reaches.derives (path : g.Reaches first last) :
    ∃ before after, g.Derives [.variable first] (before ++ .variable last :: after) := by
  induction path with
  | refl name => exact ⟨[], [], .refl _⟩
  | head step _ ih =>
    obtain ⟨before, after, outer⟩ := step.derives
    obtain ⟨before', after', inner⟩ := ih
    refine ⟨before ++ before', after' ++ after, outer.trans ?_⟩
    have grown := inner.within before after
    simpa only [List.nil_append, List.append_assoc, List.cons_append] using grown

/-- Every variable of a derived form is on a path from one of the form before. -/
theorem Derives.reaches {form form' : List Symbol} (h : g.Derives form form') {name : String}
    (mem : Symbol.variable name ∈ form') :
    ∃ first, Symbol.variable first ∈ form ∧ g.Reaches first name := by
  induction h with
  | refl => exact ⟨name, mem, .refl _⟩
  | head step _ ih =>
    obtain @⟨before, after, left, alternative, own⟩ := step
    obtain ⟨first, occurs, path⟩ := ih mem
    rcases List.mem_append.mp occurs with occurs | occurs
    · exact ⟨first, List.mem_append_left _ occurs, path⟩
    rcases List.mem_append.mp occurs with occurs | occurs
    · exact ⟨left, by simp, .head ⟨alternative, own, occurs⟩ path⟩
    · exact ⟨first, by simp [occurs], path⟩

theorem reaches_iff_derives :
    g.Reaches first last ↔
      ∃ before after, g.Derives [.variable first] (before ++ .variable last :: after) := by
  constructor
  · exact Reaches.derives
  · intro h
    obtain ⟨before, after, steps⟩ := h
    obtain ⟨other, mem, path⟩ := steps.reaches (List.mem_append_right _ List.mem_cons_self)
    rw [Symbol.variable.inj (List.mem_singleton.mp mem)] at path
    exact path

end Grammar

namespace Reachability

variable {g : Grammar} {reached pending : NameSet}

theorem mem_newIn {alternatives : List Alternative} {name : String} :
    name ∈ newIn alternatives reached ↔
      (∃ alternative ∈ alternatives, Symbol.variable name ∈ alternative) ∧ name ∉ reached := by
  simp [newIn]

/-- What the worklist has done so far. -/
structure Explored (g : Grammar) (reached pending : NameSet) : Prop where
  start_mem : g.start ∈ reached
  pending_reached : ∀ {name}, name ∈ pending → name ∈ reached
  path : ∀ {name}, name ∈ reached → g.Reaches g.start name
  expanded : ∀ {name}, name ∈ reached → name ∉ pending →
    ∀ {other}, g.Exposes name other → other ∈ reached

theorem explored_start (g : Grammar) :
    Explored g (NameSet.ofList [g.start]) (NameSet.ofList [g.start]) where
  start_mem := by simp
  pending_reached := id
  path := by
    intro name mem
    rw [List.mem_singleton.mp (NameSet.mem_ofList.mp mem)]
    exact .refl _
  expanded := fun mem absent => absurd mem absent

/-- The next set reached, and the next set pending, where a variable is expanded. -/
def widened (g : Grammar) (left : String) (reached : NameSet) : NameSet :=
  reached.insertMany (newIn (g.alternatives left) reached)

def resumed (g : Grammar) (left : String) (reached pending : NameSet) : NameSet :=
  (pending.erase left).insertMany (newIn (g.alternatives left) reached)

theorem mem_widened {left name : String} :
    name ∈ widened g left reached ↔ name ∈ reached ∨ g.Exposes left name := by
  rw [widened, Std.ExtTreeSet.mem_insertMany_list, List.contains_iff_mem, mem_newIn]
  by_cases old : name ∈ reached <;> simp [old, Grammar.Exposes]

theorem mem_resumed {left name : String} :
    name ∈ resumed g left reached pending ↔
      name ≠ left ∧ name ∈ pending ∨ g.Exposes left name ∧ name ∉ reached := by
  rw [resumed, Std.ExtTreeSet.mem_insertMany_list, List.contains_iff_mem, mem_newIn,
    Std.ExtTreeSet.mem_erase, Grammar.Exposes, ne_eq, Std.LawfulEqOrd.compare_eq_iff_eq,
    eq_comm (a := left)]

/-- One expansion of a pending variable. -/
theorem Explored.step (h : Explored g reached pending) {left : String} (mem : left ∈ pending) :
    Explored g (widened g left reached) (resumed g left reached pending) where
  start_mem := mem_widened.mpr (.inl h.start_mem)
  pending_reached := by
    intro name waiting
    rcases mem_resumed.mp waiting with old | new
    · exact mem_widened.mpr (.inl (h.pending_reached old.2))
    · exact mem_widened.mpr (.inr new.1)
  path := by
    intro name inside
    rcases mem_widened.mp inside with old | new
    · exact h.path old
    · exact (h.path (h.pending_reached mem)).tail new
  expanded := by
    intro name inside done other exposed
    rw [mem_resumed, not_or] at done
    rw [mem_widened] at inside ⊢
    by_cases same : name = left
    · exact .inr (same ▸ exposed)
    · have old : name ∈ reached := by
        apply Decidable.byContradiction
        intro new
        exact done.2 ⟨inside.resolve_left new, new⟩
      exact .inl (h.expanded old (fun waiting => done.1 ⟨same, waiting⟩) exposed)

/-- The variables that are not expanded yet, reached or not. -/
def unexpanded (g : Grammar) (reached pending : NameSet) : List String :=
  g.variableNames.filter fun name => !reached.contains name || pending.contains name

theorem mem_unexpanded {name : String} :
    name ∈ unexpanded g reached pending ↔
      name ∈ g.table ∧ (name ∉ reached ∨ name ∈ pending) := by
  simp [unexpanded, Grammar.mem_variableNames]

theorem length_unexpanded_lt (h : Explored g reached pending) {left : String}
    (mem : left ∈ pending) (variable_mem : left ∈ g.table) :
    (unexpanded g (widened g left reached) (resumed g left reached pending)).length <
      (unexpanded g reached pending).length := by
  have fewer : unexpanded g (widened g left reached) (resumed g left reached pending) =
      (unexpanded g reached pending).filter fun name => name != left := by
    rw [unexpanded, unexpanded, List.filter_filter]
    apply List.filter_congr
    intro name _
    have inside := h.pending_reached mem
    rw [Bool.eq_iff_iff]
    simp only [Bool.or_eq_true, Bool.not_eq_true', ← Bool.not_eq_true, Bool.and_eq_true,
      Std.ExtTreeSet.contains_iff_mem, mem_widened, mem_resumed, bne_iff_ne, ne_eq, not_or]
    by_cases same : name = left
    · subst same
      simp [inside]
    · by_cases old : name ∈ reached <;> by_cases exposed : g.Exposes left name <;>
        simp [same, old, exposed]
  rw [fewer]
  exact List.length_filter_lt_length_iff_exists.mpr
    ⟨left, mem_unexpanded.mpr ⟨variable_mem, .inr mem⟩, by simp⟩

theorem expansions_of_cons {limit : Nat} {left : String} {others : List String}
    (h : pending.toList = left :: others) :
    expansions g (limit + 1) reached pending =
      ⟨left, newIn (g.alternatives left) reached, widened g left reached⟩ ::
        expansions g limit (widened g left reached) (resumed g left reached pending) := by
  rw [expansions, h]
  rfl

/-- The set that expansions end with. -/
def final (reached : NameSet) (expansions : List Expansion) : NameSet :=
  (expansions.getLast?.map Expansion.reached).getD reached

theorem final_cons (reached : NameSet) (first : Expansion) (expansions : List Expansion) :
    final reached (first :: expansions) = final first.reached expansions := by
  rw [final, final, List.getLast?_cons]
  cases expansions.getLast? <;> rfl

theorem Explored.mem_table (hg : g.Closed) (h : Explored g reached pending) {name : String}
    (mem : name ∈ pending) : name ∈ g.table :=
  (h.path (h.pending_reached mem)).mem_table hg hg.start_mem

theorem Explored.pending_eq_empty (hg : g.Closed) (h : Explored g reached pending)
    (expanded : unexpanded g reached pending = []) : pending = ∅ := by
  apply Std.ExtTreeSet.ext_mem
  intro name
  have absent : name ∉ pending := by
    intro mem
    have listed : name ∈ unexpanded g reached pending :=
      mem_unexpanded.mpr ⟨h.mem_table hg mem, .inr mem⟩
    rw [expanded] at listed
    exact List.not_mem_nil listed
  simp [absent]

/-- With a limit that counts the variables not expanded yet, none stays pending. -/
theorem explored_final (hg : g.Closed) {limit : Nat} (h : Explored g reached pending)
    (enough : (unexpanded g reached pending).length ≤ limit) :
    Explored g (final reached (expansions g limit reached pending)) ∅ := by
  induction limit generalizing reached pending with
  | zero =>
    have idle := h.pending_eq_empty hg (List.length_eq_zero_iff.mp (by omega))
    rw [expansions, ← idle]
    exact h
  | succ limit ih =>
    cases list : pending.toList with
    | nil =>
      have idle : pending = ∅ := Std.ExtTreeSet.toList_eq_nil_iff.mp list
      rw [expansions, list, ← idle]
      exact h
    | cons left others =>
      have mem : left ∈ pending := Std.ExtTreeSet.mem_toList.mp (list ▸ List.mem_cons_self)
      have fewer := length_unexpanded_lt h mem (h.mem_table hg mem)
      rw [expansions_of_cons list, final_cons]
      exact ih (h.step mem) (Nat.le_of_lt_succ (Nat.lt_of_lt_of_le fewer enough))

end Reachability

namespace Grammar

/-- The result is what the start symbol reaches. -/
theorem mem_reachable_iff {g : Grammar} (hg : g.Closed) {name : String} :
    name ∈ g.reachable.value ↔ g.Reaches g.start name := by
  have enough : (Reachability.unexpanded g (NameSet.ofList [g.start])
      (NameSet.ofList [g.start])).length ≤ g.table.size := by
    rw [← length_variableNames]
    exact List.length_filter_le ..
  have done := Reachability.explored_final hg (Reachability.explored_start g) enough
  constructor
  · exact done.path
  · intro path
    have closed {first last : String} (path : g.Reaches first last)
        (mem : first ∈ g.reachable.value) : last ∈ g.reachable.value := by
      induction path with
      | refl => exact mem
      | head step _ ih => exact ih (done.expanded mem (by simp) step)
    exact closed path done.start_mem

theorem Closed.mem_table_of_mem_reachable {g : Grammar} (hg : g.Closed) {name : String}
    (mem : name ∈ g.reachable.value) : name ∈ g.table :=
  ((mem_reachable_iff hg).mp mem).mem_table hg hg.start_mem

end Grammar

end GrammarFixpoint
