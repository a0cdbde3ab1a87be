import GrammarFixpoint.Analysis.UnitClosure
import GrammarFixpoint.Proofs.Reduction

/-! What equal grammars have in common. Equality looks at the start symbol and at the
table of the rules, not at the order in which the rules were given, and that order is
what a restriction goes by when it builds a grammar anew. The analyses themselves look
up one variable at a time and take them in ascending order, so step by step they do the
same on both grammars. A restriction to the same variables keeps the same alternatives
on both, in whatever order it comes upon them, so both cuts of a reduction give equal
grammars again. -/

namespace GrammarFixpoint

namespace Grammar

/-- Grammars that differ in the order of their rules at most. -/
structure Agree (a b : Grammar) : Prop where
  start : a.start = b.start
  table : a.table = b.table

variable {a b : Grammar}

theorem agree_iff_beq : a.Agree b ↔ (a == b) = true := by
  rw [beq_iff]
  exact ⟨fun h => ⟨h.start, h.table⟩, fun h => ⟨h.1, h.2⟩⟩

namespace Agree

variable (h : a.Agree b)
include h

theorem variableNames : a.variableNames = b.variableNames := by
  rw [Grammar.variableNames, Grammar.variableNames, h.table]

theorem alternatives (left : String) : a.alternatives left = b.alternatives left := by
  rw [Grammar.alternatives, Grammar.alternatives, h.table]

theorem saturate (c : Criterion) : a.saturate c = b.saturate c := by
  have run : Saturation.run c a = Saturation.run c b := by
    rw [Saturation.run, Saturation.run, sortedRules, sortedRules, h.table]
  rw [Grammar.saturate, Grammar.saturate, run]

theorem expansions (limit : Nat) (reached pending : NameSet) :
    Reachability.expansions a limit reached pending =
      Reachability.expansions b limit reached pending := by
  induction limit generalizing reached pending with
  | zero => rfl
  | succ limit ih =>
    rw [Reachability.expansions, Reachability.expansions]
    cases pending.toList with
    | nil => rfl
    | cons left others => simp only [h.alternatives left, ih]

theorem reachable : a.reachable = b.reachable := by
  have run : Reachability.run a = Reachability.run b := by
    rw [Reachability.run, Reachability.run, h.start, h.table, h.expansions]
  have growth : Reachability.growth a = Reachability.growth b := by
    funext expansion
    rw [Reachability.growth, Reachability.growth, Reachability.explain, Reachability.explain,
      h.alternatives]
  rw [Grammar.reachable, Grammar.reachable, run, growth, Reachability.begin, Reachability.begin,
    h.start]

theorem explore (limit : Nat) (closure pending : NameSet) :
    UnitClosure.explore a limit closure pending = UnitClosure.explore b limit closure pending := by
  induction limit generalizing closure pending with
  | zero => rfl
  | succ limit ih =>
    rw [UnitClosure.explore, UnitClosure.explore]
    cases pending.toList with
    | nil => rfl
    | cons source others => simp only [h.alternatives source, ih]

theorem unitClosure (origin : String) : a.unitClosure origin = b.unitClosure origin := by
  have run : UnitClosure.run a origin = UnitClosure.run b origin := by
    rw [UnitClosure.run, UnitClosure.run, h.table, h.explore]
  rw [Grammar.unitClosure, Grammar.unitClosure, run]

theorem unitClosures : a.unitClosures = b.unitClosures := by
  have closures : (fun origin => (origin, a.unitClosure origin)) =
      fun origin => (origin, b.unitClosure origin) := by
    funext origin
    rw [h.unitClosure]
  rw [Grammar.unitClosures, Grammar.unitClosures, h.variableNames, closures]

theorem transition (set : NameSet) : a.transition set = b.transition set := by
  rw [Grammar.transition, Grammar.transition, h.variableNames]

/-- Cut down to the same variables, the grammars agree again. -/
theorem restricted (ha : a.WellFormed) (hb : b.WellFormed) {keep : NameSet} {a' b' : Grammar}
    (cut : Restricted a a' keep) (cut' : Restricted b b' keep) : a'.Agree b' := by
  have kept (left : String) : left ∈ a'.table ↔ left ∈ b'.table := by
    rw [cut.mem_table_iff, cut'.mem_table_iff, ha.mem_order, hb.mem_order, h.table]
  refine ⟨by rw [cut.start, cut'.start, h.start], table_eq_of_alternatives kept ?_⟩
  intro left mem
  rw [cut.alternatives_eq mem, cut'.alternatives_eq ((kept left).mp mem), h.alternatives]

theorem eliminateUseless (ha : a.WellFormed) (hb : b.WellFormed) :
    (∃ start, a.eliminateUseless = .error (.emptyLanguage start) ∧
      b.eliminateUseless = .error (.emptyLanguage start)) ∨
    ∃ r r' : Traced Grammar, a.eliminateUseless = .ok r ∧ b.eliminateUseless = .ok r' ∧
      (r.value == r'.value) = true ∧ r.trace = r'.trace := by
  have terminating : a.terminating = b.terminating := h.saturate .terminating
  by_cases start : a.start ∈ a.terminating.value
  · obtain ⟨productive, reduced, cuts, eq⟩ := eliminateUseless_eq_ok ha start
    rw [h.start, terminating] at start
    obtain ⟨productive', reduced', cuts', eq'⟩ := eliminateUseless_eq_ok hb start
    have first : productive.Agree productive' :=
      h.restricted ha hb cuts.first (terminating ▸ cuts'.first)
    have second : reduced.Agree reduced' :=
      first.restricted cuts.first.wellFormed cuts'.first.wellFormed cuts.second
        (first.reachable ▸ cuts'.second)
    refine .inr ⟨_, _, eq, eq', agree_iff_beq.mp second, ?_⟩
    rw [terminating, h.transition, first.reachable]
  · refine .inl ⟨a.start, eliminateUseless_eq_error start, ?_⟩
    rw [h.start, terminating] at start
    rw [h.start]
    exact eliminateUseless_eq_error start

end Agree

/-- No analysis tells equal grammars apart, neither by what it returns nor by its trace,
and reductions of them fail alike or are equal with one and the same trace. -/
theorem beq_indistinguishable (ha : a.Arises) (hb : b.Arises) (same : (a == b) = true) :
    (∀ name, a.variableId? name = b.variableId? name) ∧
    a.terminating = b.terminating ∧ a.nullable = b.nullable ∧ a.reachable = b.reachable ∧
    (∀ origin, a.unitClosure origin = b.unitClosure origin) ∧
    a.unitClosures = b.unitClosures ∧
    ((∃ start, a.eliminateUseless = .error (.emptyLanguage start) ∧
      b.eliminateUseless = .error (.emptyLanguage start)) ∨
    ∃ r r' : Traced Grammar, a.eliminateUseless = .ok r ∧ b.eliminateUseless = .ok r' ∧
      (r.value == r'.value) = true ∧ r.trace = r'.trace) := by
  have h := agree_iff_beq.mpr same
  refine ⟨?_, h.saturate .terminating, h.saturate .nullable, h.reachable, h.unitClosure,
    h.unitClosures, h.eliminateUseless ha.wellFormed hb.wellFormed⟩
  intro name
  rw [variableId?, variableId?, h.variableNames]

/-- Two texts of one grammar whose last rules stand in different order. A reduction
takes `A` away and with it the use of `B`. -/
theorem beq_indistinguishable_of_reordered :
    ∃ a b r r', ofText "S -> A B | a\nA -> A\nB -> b" = .ok a ∧
      ofText "S -> A B | a\nB -> b\nA -> A" = .ok b ∧ a.order ≠ b.order ∧
      a.reachable = b.reachable ∧ a.unitClosures = b.unitClosures ∧
      a.eliminateUseless = .ok r ∧ b.eliminateUseless = .ok r' ∧
      (r.value == r'.value) = true ∧ r.trace = r'.trace := by
  have shown : (ofText "S -> A B | a\nA -> A\nB -> b").toOption.map (fun a =>
      (a.order, (ofText "S -> A B | a\nB -> b\nA -> A").toOption.map (fun b =>
        (b.order, a == b)), a.terminating.value.contains a.start)) =
      some (["S", "A", "B"], some (["S", "B", "A"], true), true) := by decide
  obtain ⟨a, read, shown⟩ := exists_ok_of_shown shown
  simp only [Prod.mk.injEq] at shown
  obtain ⟨order, shown', productive⟩ := shown
  obtain ⟨b, read', shown'⟩ := exists_ok_of_shown shown'
  simp only [Prod.mk.injEq] at shown'
  obtain ⟨order', same⟩ := shown'
  obtain ⟨-, -, -, reachable, -, closures, reductions⟩ :=
    beq_indistinguishable (.built (.text read)) (.built (.text read')) same
  rcases reductions with ⟨start, failed, -⟩ | ⟨r, r', reduce, reduce', equal, trace⟩
  · obtain ⟨_, _, _, reduced⟩ := eliminateUseless_eq_ok (Built.text read).wellFormed
      (Std.ExtTreeSet.contains_iff_mem.mp productive)
    rw [reduced] at failed
    cases failed
  · exact ⟨a, b, r, r', read, read', by simp [order, order'], reachable, closures, reduce, reduce',
      equal, trace⟩

end Grammar

end GrammarFixpoint
