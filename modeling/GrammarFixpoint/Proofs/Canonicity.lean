import GrammarFixpoint.Proofs.Equality
import GrammarFixpoint.Proofs.Numbering
import GrammarFixpoint.Proofs.Printing
import Mathlib.Tactic.TFAE

/-! What a grammar is known by. Equality, the numbers of its symbols and its snapshot
all say as much as the names that its rules were given by, and no more. A name is in the
class that the left-hand sides put it in and has the number of its place in that class,
so the same names give the same symbols and the same numbers whatever the order of the
rules, and a number leads back to its name. In a snapshot an alternative is a line of
text: its words are its names, because no legal name holds a blank, and the marker of
the empty alternative is no legal name. -/

namespace GrammarFixpoint

/-- What two snapshots show is the same, in whatever order the productions stand. -/
structure Snapshot.Same (s t : Snapshot) : Prop where
  start : s.start = t.start
  variableNames : s.variableNames = t.variableNames
  terminalNames : s.terminalNames = t.terminalNames
  productions : ∀ left, s.productions.lookup left = t.productions.lookup left

namespace Alternative

variable {alternative other : Alternative}

/-- What the alternative is written with shows its names. -/
theorem map_name_eq_of_words (h : alternative.Legal) (h' : other.Legal)
    (same : alternative.words = other.words) :
    alternative.map Symbol.name = other.map Symbol.name := by
  have marker {symbol : Symbol} {symbols : Alternative} (h : Legal (symbol :: symbols)) :
      [emptyMarker] ≠ (symbol :: symbols).map Symbol.name := by
    intro eq
    have legal := h symbol List.mem_cons_self
    rw [List.map_cons, List.cons.injEq] at eq
    rw [← eq.1] at legal
    exact absurd legal (by decide)
  cases alternative with
  | nil =>
    cases other with
    | nil => rfl
    | cons symbol symbols => exact absurd same (marker h')
  | cons symbol symbols =>
    cases other with
    | nil => exact absurd same.symm (marker h)
    | cons => exact same

/-- Legal names can be told from the text. -/
theorem text_eq_iff (h : alternative.Legal) (h' : other.Legal) :
    alternative.text = other.text ↔ alternative.map Symbol.name = other.map Symbol.name := by
  constructor
  · intro same
    apply map_name_eq_of_words h h'
    rw [← h.words_text, ← h'.words_text, same]
  · intro same
    cases alternative with
    | nil =>
      rw [List.map_nil, eq_comm, List.map_eq_nil_iff] at same
      rw [same]
    | cons symbol symbols =>
      cases other with
      | nil => cases same
      | cons => rw [text, text, same] <;> exact List.cons_ne_nil _ _

theorem map_names_of_texts {alternatives others : List Alternative}
    (h : ∀ alternative ∈ alternatives, alternative.Legal) (h' : ∀ other ∈ others, other.Legal)
    (same : alternatives.map text = others.map text) :
    alternatives.map (List.map Symbol.name) = others.map (List.map Symbol.name) := by
  induction alternatives generalizing others with
  | nil => rw [List.map_eq_nil_iff.mp same.symm]
  | cons alternative alternatives ih =>
    cases others with
    | nil => cases same
    | cons other others =>
      obtain ⟨legal, h⟩ := List.forall_mem_cons.mp h
      obtain ⟨legal', h'⟩ := List.forall_mem_cons.mp h'
      obtain ⟨first, same⟩ := List.cons.inj same
      rw [List.map_cons, List.map_cons, (text_eq_iff legal legal').mp first, ih h h' same]

end Alternative

namespace Grammar

variable {a b g : Grammar} {left : String}

/-- The same rules by name, in whatever order. -/
structure SameByName (a b : Grammar) : Prop where
  start : a.start = b.start
  lefts : ∀ left, left ∈ a.order ↔ left ∈ b.order
  alternatives : ∀ left ∈ a.order, (a.alternatives left).map (List.map Symbol.name) =
    (b.alternatives left).map (List.map Symbol.name)

/-! Names. -/

/-- The classes of symbols follow from the left-hand sides. -/
theorem WellFormed.classify_names (hg : g.WellFormed) (left : String) :
    ((g.alternatives left).map (List.map Symbol.name)).map
      (List.map (Symbol.classify g.table.contains)) = g.alternatives left := by
  rw [List.map_map]
  refine (List.map_congr_left ?_).trans (List.map_id _)
  intro alternative own
  rw [Function.comp_apply, List.map_map, id_eq]
  refine (List.map_congr_left ?_).trans (List.map_id _)
  intro symbol occurs
  apply classify_name
  · rintro name rfl
    exact Std.ExtTreeMap.contains_iff_mem.mpr (hg.variable_mem own occurs)
  · rintro name rfl
    rw [← Bool.not_eq_true, Std.ExtTreeMap.contains_iff_mem]
    exact hg.terminal_not_mem own occurs

theorem SameByName.agree (h : a.SameByName b) (ha : a.WellFormed) (hb : b.WellFormed) :
    a.Agree b := by
  have known (left : String) : left ∈ a.table ↔ left ∈ b.table := by
    rw [← ha.mem_order, ← hb.mem_order, h.lefts]
  have classes : a.table.contains = b.table.contains := by
    funext name
    rw [Bool.eq_iff_iff, Std.ExtTreeMap.contains_iff_mem, Std.ExtTreeMap.contains_iff_mem, known]
  refine ⟨h.start, table_eq_of_alternatives known ?_⟩
  intro left mem
  rw [← ha.classify_names, ← hb.classify_names, h.alternatives left (ha.mem_order.mpr mem), classes]

/-! Numbers. -/

theorem Agree.terminalNames (h : a.Agree b) : a.terminalNames = b.terminalNames := by
  rw [Grammar.terminalNames, Grammar.terminalNames, h.table]

theorem Agree.symbolId (h : a.Agree b) : a.symbolId = b.symbolId := by
  funext symbol
  rcases symbol with name | name
  · rw [Grammar.symbolId, Grammar.symbolId, h.terminalNames]
  · rw [Grammar.symbolId, Grammar.symbolId, h.variableNames]

/-- The order of the rules leaves no trace in the numbers. -/
theorem Agree.numbering (h : a.Agree b) (ha : a.WellFormed) (hb : b.WellFormed) :
    a.numbering = b.numbering := by
  have known {id : UInt16} : id ∈ a.numbering.rules ↔ id ∈ b.numbering.rules := by
    rw [ha.mem_rules_numbering, hb.mem_rules_numbering, h.table, h.variableNames]
  have rules : a.numbering.rules = b.numbering.rules := by
    refine Std.ExtTreeMap.ext_getElem? ?_
    intro id
    by_cases own : id ∈ a.numbering.rules
    · obtain ⟨left, mem, rfl⟩ := ha.mem_rules_numbering.mp own
      rw [ha.getElem?_rules_numbering mem, h.variableNames,
        hb.getElem?_rules_numbering (h.table ▸ mem), h.alternatives, h.symbolId]
    · rw [Std.ExtTreeMap.getElem?_eq_none own,
        Std.ExtTreeMap.getElem?_eq_none (mt known.mpr own)]
  have start : a.numbering.start = b.numbering.start := by
    rw [Grammar.numbering, Grammar.numbering, h.variableNames, h.start]
  have terminalNames : a.numbering.terminalNames = b.numbering.terminalNames := h.terminalNames
  have variableNames : a.numbering.variableNames = b.numbering.variableNames := h.variableNames
  rw [NumberedGrammar.mk.injEq]
  exact ⟨variableNames, terminalNames, rules, start⟩

theorem mem_order_iff (ha : a.WellFormed) (hb : b.WellFormed)
    (same : a.variableNames = b.variableNames) (left : String) :
    left ∈ a.order ↔ left ∈ b.order := by
  rw [ha.mem_order, hb.mem_order, ← mem_variableNames, ← mem_variableNames, same]

/-- Numbers lead back to the names. -/
theorem sameByName_of_numbering (ha : a.WellFormed) (hb : b.WellFormed)
    (same : a.numbering = b.numbering) : a.SameByName b := by
  have variableNames : a.variableNames = b.variableNames :=
    congrArg NumberedGrammar.variableNames same
  have known := mem_order_iff ha hb variableNames
  refine ⟨?_, known, ?_⟩
  · have start : position a.variableNames a.start = position b.variableNames b.start :=
      congrArg NumberedGrammar.start same
    rw [← variableNames] at start
    refine position_inj ha.length_variableNames_le (mem_variableNames.mpr ha.start_mem) ?_ start
    rw [variableNames]
    exact mem_variableNames.mpr hb.start_mem
  · intro left mem
    have shown := ha.map_name?_numbering (ha.mem_order.mp mem)
    rw [same, variableNames, hb.map_name?_numbering (hb.mem_order.mp ((known left).mp mem))] at shown
    have names (alternatives : List Alternative) :
        alternatives.map (fun alternative => alternative.map fun symbol => some symbol.name) =
          (alternatives.map (List.map Symbol.name)).map (List.map some) := by
      simp [Function.comp_def]
    rw [names, names] at shown
    have injective : Function.Injective (List.map (some : String → Option String)) :=
      List.map_injective_iff.mpr fun _ _ => Option.some.inj
    exact (List.map_injective_iff.mpr injective shown).symm

/-! Snapshots. -/

theorem WellFormed.lookup_productions (hg : g.WellFormed) (mem : left ∈ g.table) :
    g.snapshot.productions.lookup left = some ((g.alternatives left).map Alternative.text) := by
  rw [snapshot, rules, List.map_map]
  exact List.lookup_graph (fun left => (g.alternatives left).map Alternative.text)
    (hg.mem_order.mpr mem)

theorem WellFormed.lookup_productions_eq_none (hg : g.WellFormed) (absent : left ∉ g.table) :
    g.snapshot.productions.lookup left = none := by
  rw [List.lookup_eq_none_iff, snapshot, rules]
  simp only [List.map_map, List.forall_mem_map, Function.comp_apply, bne_iff_ne]
  rintro other mem rfl
  exact absent (hg.mem_order.mp mem)

theorem Agree.snapshot_same (h : a.Agree b) (ha : a.WellFormed) (hb : b.WellFormed) :
    a.snapshot.Same b.snapshot := by
  refine ⟨h.start, h.variableNames, h.terminalNames, ?_⟩
  intro left
  by_cases mem : left ∈ a.table
  · rw [ha.lookup_productions mem, hb.lookup_productions (h.table ▸ mem), h.alternatives]
  · rw [ha.lookup_productions_eq_none mem, hb.lookup_productions_eq_none (h.table ▸ mem)]

/-- The alternatives can be told from their texts. -/
theorem sameByName_of_snapshot (ha : a.WellFormed) (hb : b.WellFormed)
    (same : a.snapshot.Same b.snapshot) : a.SameByName b := by
  have known := mem_order_iff ha hb same.variableNames
  refine ⟨same.start, known, ?_⟩
  intro left mem
  have shown := same.productions left
  rw [ha.lookup_productions (ha.mem_order.mp mem),
    hb.lookup_productions (hb.mem_order.mp ((known left).mp mem)), Option.some.injEq] at shown
  exact Alternative.map_names_of_texts (fun _ => ha.legal) (fun _ => hb.legal) shown

/-- Equality, the numbers, the snapshots and the names of two grammars agree with each
other, and no two alternatives are shown by one text. -/
theorem equality_canonical (ha : a.Arises) (hb : b.Arises) :
    (∃ n n', a.numbered? = some n ∧ b.numbered? = some n' ∧
      [(a == b) = true, n = n', a.snapshot.Same b.snapshot, a.SameByName b].TFAE) ∧
    ∀ left, ∀ alternative ∈ a.alternatives left, ∀ left', ∀ other ∈ b.alternatives left',
      alternative.text = other.text ↔ alternative.map Symbol.name = other.map Symbol.name := by
  have wa := ha.wellFormed
  have wb := hb.wellFormed
  refine ⟨⟨a.numbering, b.numbering, wa.numbered?_eq, wb.numbered?_eq, ?_⟩, ?_⟩
  · tfae_have 1 → 2 := fun same => (agree_iff_beq.mpr same).numbering wa wb
    tfae_have 1 → 3 := fun same => (agree_iff_beq.mpr same).snapshot_same wa wb
    tfae_have 2 → 4 := sameByName_of_numbering wa wb
    tfae_have 3 → 4 := sameByName_of_snapshot wa wb
    tfae_have 4 → 1 := fun same => agree_iff_beq.mp (same.agree wa wb)
    tfae_finish
  · intro left alternative own left' other own'
    exact Alternative.text_eq_iff (wa.legal own) (wb.legal own')

/-- A grammar that is read and one that is declared, with the rules in another order and
the start symbol not the first. -/
theorem equality_canonical_of_reordered :
    ∃ a b, ofText "S -> a B | λ | a\nB -> b" = .ok a ∧
      ofDeclarations [.production "B" ["b"], .start "S", .production "S" ["a", "B"],
        .production "S" [], .production "S" ["a"]] = .ok b ∧ a.order ≠ b.order ∧
      (∃ n, a.numbered? = some n ∧ b.numbered? = some n) ∧ a.snapshot.Same b.snapshot ∧
      a.SameByName b := by
  have shown : (ofText "S -> a B | λ | a\nB -> b").toOption.map (fun a =>
      (a.order, (ofDeclarations [.production "B" ["b"], .start "S", .production "S" ["a", "B"],
        .production "S" [], .production "S" ["a"]]).toOption.map (fun b => (b.order, a == b)))) =
      some (["S", "B"], some (["B", "S"], true)) := by decide
  obtain ⟨a, read, shown⟩ := exists_ok_of_shown shown
  simp only [Prod.mk.injEq] at shown
  obtain ⟨order, shown⟩ := shown
  obtain ⟨b, declared, shown⟩ := exists_ok_of_shown shown
  simp only [Prod.mk.injEq] at shown
  obtain ⟨order', same⟩ := shown
  obtain ⟨⟨n, n', numbered, numbered', tfae⟩, -⟩ :=
    equality_canonical (.built (.text read)) (.built (.declarations declared))
  have numbers : n = n' := (tfae.out 0 1).mp same
  exact ⟨a, b, read, declared, by simp [order, order'], ⟨n, numbered, numbers ▸ numbered'⟩,
    (tfae.out 0 2).mp same, (tfae.out 0 3).mp same⟩

end Grammar

end GrammarFixpoint
