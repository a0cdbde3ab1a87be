import GrammarFixpoint.Proofs.Numbering
import GrammarFixpoint.Proofs.Worklists

/-! What a reduction leaves alone. A cut declares its grammar anew by name, so the class
of every symbol is decided again; a name that stays is of its old class because the kept
alternatives are old ones and every kept variable has one of them. The other analyses then
see no difference either. Where a variable derives the empty string or ends a chain of
unit productions, all that lies between is useful itself: it derives a string because what
follows does, and it is in reach because what comes before is. -/

namespace GrammarFixpoint.Grammar

/-- What is left of the first grammar in the second is what it was: each name is a variable
or a terminal as before, and each alternative is an old one, symbol by symbol. -/
structure KeepsClasses (g r : Grammar) : Prop where
  variable_iff : ∀ name ∈ r.variableNames ++ r.terminalNames,
    (name ∈ r.variableNames ↔ name ∈ g.variableNames)
  terminal_iff : ∀ name ∈ r.variableNames ++ r.terminalNames,
    (name ∈ r.terminalNames ↔ name ∈ g.terminalNames)
  alternative_mem : ∀ left, ∀ alternative ∈ r.alternatives left, alternative ∈ g.alternatives left

variable {g productive reduced r : Grammar} {keep : NameSet}

/-- Old alternatives of old variables have their symbols in the old classes. -/
theorem Restricted.keepsClasses (hg : g.WellFormed) (cut : Restricted g r keep) :
    KeepsClasses g r := by
  have old (left : String) (alternative : Alternative) (own : alternative ∈ r.alternatives left) :
      alternative ∈ g.alternatives left := (cut.mem_alternatives_iff.mp own).2.1
  have variable_mem {name : String} (mem : name ∈ r.variableNames) : name ∈ g.variableNames :=
    mem_variableNames.mpr
      (hg.mem_order.mp (cut.mem_table_iff.mp (mem_variableNames.mp mem)).1)
  have terminal_mem {name : String} (mem : name ∈ r.terminalNames) : name ∈ g.terminalNames := by
    obtain ⟨left, alternative, own, occurs⟩ := mem_terminalNames.mp mem
    exact mem_terminalNames.mpr ⟨left, alternative, old left alternative own, occurs⟩
  refine ⟨fun name present => ⟨variable_mem, fun known => ?_⟩,
    fun name present => ⟨terminal_mem, fun known => ?_⟩, old⟩
  · refine (List.mem_append.mp present).resolve_right fun listed => ?_
    exact hg.not_mem_terminalNames known (terminal_mem listed)
  · refine (List.mem_append.mp present).resolve_left fun listed => ?_
    exact hg.not_mem_terminalNames (variable_mem listed) known

theorem KeepsClasses.trans {middle : Grammar} (h : KeepsClasses g middle)
    (h' : KeepsClasses middle r) : KeepsClasses g r := by
  have present {name : String} (mem : name ∈ r.variableNames ++ r.terminalNames) :
      name ∈ middle.variableNames ++ middle.terminalNames := by
    rcases List.mem_append.mp mem with listed | listed
    · exact List.mem_append_left _ ((h'.variable_iff name mem).mp listed)
    · exact List.mem_append_right _ ((h'.terminal_iff name mem).mp listed)
  refine ⟨?_, ?_, ?_⟩
  · exact fun name mem => (h'.variable_iff name mem).trans (h.variable_iff name (present mem))
  · exact fun name mem => (h'.terminal_iff name mem).trans (h.terminal_iff name (present mem))
  · exact fun left alternative own =>
      h.alternative_mem left alternative (h'.alternative_mem left alternative own)

/-- A reduction has no failure of its own: where the start symbol derives a string both
cuts can be declared and change the class of no symbol, and elsewhere neither is made. -/
theorem reduction_keeps_classes (h : g.Arises) :
    (∀ e, g.eliminateUseless ≠ .error (.grammar e)) ∧
    (g.start ∉ g.terminating.value → g.eliminateUseless = .error (.emptyLanguage g.start)) ∧
    (g.start ∈ g.terminating.value → ∃ productive reduced trace,
      g.restrict g.terminating.value = .ok productive ∧
      productive.restrict productive.reachable.value = .ok reduced ∧
      g.eliminateUseless = .ok ⟨reduced, trace⟩ ∧
      KeepsClasses g productive ∧ KeepsClasses g reduced) := by
  have hg := h.wellFormed
  have stages (start : g.start ∈ g.terminating.value) : ∃ productive reduced trace,
      g.restrict g.terminating.value = .ok productive ∧
      productive.restrict productive.reachable.value = .ok reduced ∧
      g.eliminateUseless = .ok ⟨reduced, trace⟩ ∧
      KeepsClasses g productive ∧ KeepsClasses g reduced := by
    obtain ⟨productive, cut, first⟩ := (supports_terminating start).restrict_eq_ok hg
    obtain ⟨reduced, cut', second⟩ :=
      (supports_reachable first.wellFormed).restrict_eq_ok first.wellFormed
    have kept := first.keepsClasses hg
    exact ⟨productive, reduced, _, cut, cut', eliminateUseless_of_stages start cut cut', kept,
      kept.trans (second.keepsClasses first.wellFormed)⟩
  refine ⟨fun e failed => ?_, eliminateUseless_eq_error, stages⟩
  by_cases start : g.start ∈ g.terminating.value
  · obtain ⟨_, _, _, -, -, reduce, -⟩ := stages start
    rw [reduce] at failed
    cases failed
  · rw [eliminateUseless_eq_error start] at failed
    cases failed

/-- The variable `A` loses its only alternative and is gone, not a terminal. -/
theorem reduction_keeps_classes_of_cycles :
    ∃ g result, ofText cycles = .ok g ∧ g.eliminateUseless = .ok result ∧
      "A" ∈ g.variableNames ∧ "A" ∉ result.value.terminalNames ∧
      KeepsClasses g result.value := by
  have shown : ((ofText cycles).toOption.map fun g =>
      (g.variableNames, g.terminalNames, g.terminating.value.contains g.start)) =
      some (["A", "B", "S"], ["a", "b"], true) := by decide
  obtain ⟨g, read, shown⟩ := exists_ok_of_shown shown
  simp only [Prod.mk.injEq] at shown
  obtain ⟨names, terminals, start⟩ := shown
  obtain ⟨productive, reduced, trace, -, -, reduce, -, kept⟩ :=
    (reduction_keeps_classes (.built (.text read))).2.2 (Std.ExtTreeSet.contains_iff_mem.mp start)
  refine ⟨g, _, read, reduce, by simp [names], fun terminal => ?_, kept⟩
  have old := (kept.terminal_iff "A" (List.mem_append_right _ terminal)).mp terminal
  simp [terminals] at old

/-! ## The other analyses -/

/-- A variable that derives a variable that derives a string derives a string. -/
theorem mem_terminating_of_unit {left target : String}
    (own : [Symbol.variable target] ∈ g.alternatives left) (mem : target ∈ g.terminating.value) :
    left ∈ g.terminating.value := by
  obtain ⟨word, steps⟩ := mem_terminating_iff.mp mem
  exact mem_terminating_iff.mpr ⟨word, (derives_alternative own).trans steps⟩

theorem mem_nullable_iff_generates {name : String} :
    name ∈ g.nullable.value ↔ g.Generates name [] := by
  rw [nullable, mem_saturate_iff]
  simp [Criterion.Accepts]

namespace Cuts

variable (cuts : Cuts g productive reduced)
include cuts

/-- A chain from a kept variable to one that derives a string is kept as a whole. -/
theorem unitChain_of_terminating {first last : String} (chain : g.UnitChain first last)
    (kept : first ∈ reduced.table) (mem : last ∈ g.terminating.value) :
    reduced.UnitChain first last ∧ last ∈ reduced.table := by
  induction chain with
  | refl => exact ⟨.refl _, kept⟩
  | @tail middle last _ link ih =>
    obtain ⟨chain, kept⟩ := ih (mem_terminating_of_unit link mem)
    have inside : within g.terminating.value [.variable last] = true :=
      within_iff.mpr fun occurs => Symbol.variable.inj (List.mem_singleton.mp occurs) ▸ mem
    have link' : [Symbol.variable last] ∈ reduced.alternatives middle :=
      cuts.mem_alternatives_iff.mpr (cuts.used_iff.mpr ⟨kept, link, inside⟩)
    exact ⟨.tail chain link', cuts.second.wellFormed.variable_mem link' List.mem_cons_self⟩

theorem unitChain_iff {first last : String} (kept : first ∈ reduced.table) :
    reduced.UnitChain first last ↔ g.UnitChain first last ∧ last ∈ reduced.table := by
  constructor
  · intro chain
    refine ⟨?_, chain.mem_table cuts.second.wellFormed kept⟩
    induction chain with
    | refl => exact .refl _
    | tail _ link ih => exact .tail ih (cuts.mem_alternatives_iff.mp link).1
  · intro h
    obtain ⟨chain, kept'⟩ := h
    have known := cuts.first.wellFormed.mem_order.mp (cuts.second.mem_table_iff.mp kept').1
    exact (cuts.unitChain_of_terminating chain kept (cuts.mem_productive_iff.mp known)).1

theorem mem_table_of_mem_reduced {name : String} (mem : name ∈ reduced.table) :
    name ∈ g.table := by
  have known := cuts.first.wellFormed.mem_order.mp (cuts.second.mem_table_iff.mp mem).1
  exact mem_table_of_mem_saturate (cuts.mem_productive_iff.mp known)

theorem mem_nullable_iff {name : String} :
    name ∈ reduced.nullable.value ↔ name ∈ g.nullable.value ∧ name ∈ reduced.table := by
  constructor
  · intro mem
    have known := mem_table_of_mem_saturate mem
    rw [mem_nullable_iff_generates, cuts.generates_iff known] at mem
    exact ⟨mem_nullable_iff_generates.mpr mem, known⟩
  · intro h
    obtain ⟨mem, known⟩ := h
    rw [mem_nullable_iff_generates] at mem ⊢
    exact (cuts.generates_iff known).mpr mem

theorem mem_unitClosure_iff {origin name : String} (kept : origin ∈ reduced.table) :
    name ∈ (reduced.unitClosure origin).value ↔
      name ∈ (g.unitClosure origin).value ∧ name ∈ reduced.table := by
  rw [Grammar.mem_unitClosure_iff cuts.second.wellFormed kept,
    Grammar.mem_unitClosure_iff cuts.wellFormed (cuts.mem_table_of_mem_reduced kept),
    cuts.unitChain_iff kept]

end Cuts

/-- After a reduction the nullable variables and the unit closures are the old ones, less
the variables that went. -/
theorem analyses_commute_with_reduction (h : g.Arises) {result : Traced Grammar}
    (reduce : g.eliminateUseless = .ok result) :
    (∀ name, name ∈ result.value.nullable.value ↔
      name ∈ g.nullable.value ∧ name ∈ result.value.variableNames) ∧
    ∀ origin ∈ result.value.variableNames, ∀ name,
      name ∈ (result.value.unitClosure origin).value ↔
        name ∈ (g.unitClosure origin).value ∧ name ∈ result.value.variableNames := by
  obtain ⟨productive, cuts⟩ := exists_cuts h.wellFormed reduce
  refine ⟨fun name => ?_, fun origin mem name => ?_⟩
  · rw [mem_variableNames]
    exact cuts.mem_nullable_iff
  · rw [mem_variableNames]
    exact cuts.mem_unitClosure_iff (mem_variableNames.mp mem)

/-- The link to `A` leads to no string, and `X` is nullable but out of reach. -/
theorem analyses_commute_with_reduction_of_dead_link :
    ∃ g result, ofText "S -> A | B | a\nA -> A\nB -> C\nC -> λ | S\nX -> λ" = .ok g ∧
      g.eliminateUseless = .ok result ∧
      "A" ∈ (g.unitClosure "S").value ∧ "A" ∉ (result.value.unitClosure "S").value ∧
      "C" ∈ (result.value.unitClosure "S").value ∧
      "X" ∉ result.value.nullable.value ∧ "S" ∈ result.value.nullable.value := by
  have shown : ((ofText "S -> A | B | a\nA -> A\nB -> C\nC -> λ | S\nX -> λ").toOption.map fun g =>
      (g.nullable.value.toList, (g.unitClosure "S").value.toList,
        g.eliminateUseless.toOption.map fun result => result.value.variableNames)) =
      some (["B", "C", "S", "X"], ["A", "B", "C", "S"], some ["B", "C", "S"]) := by decide
  obtain ⟨g, read, shown⟩ := exists_ok_of_shown shown
  simp only [Prod.mk.injEq] at shown
  obtain ⟨nullable, closure, reduced⟩ := shown
  obtain ⟨result, reduce, names⟩ := exists_ok_of_shown reduced
  obtain ⟨nullables, closures⟩ := analyses_commute_with_reduction (.built (.text read)) reduce
  have of_s := closures "S" (by simp [names])
  simp only [← Std.ExtTreeSet.mem_toList, nullable, closure, names] at nullables of_s ⊢
  refine ⟨g, result, read, reduce, ?_, ?_, ?_, ?_, ?_⟩
  all_goals simp [nullables, of_s, closure]

end GrammarFixpoint.Grammar
