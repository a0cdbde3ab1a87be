import GrammarFixpoint.Proofs.Canonicity
import GrammarFixpoint.Proofs.Worklists

/-! What the order and the number of alternatives decide. The rule of a variable is a list,
but what the analyses ask of it is only which alternatives are there: whether one of them
qualifies, which variables occur in them, which of them are a single variable. Grammars
whose variables have the same sets of alternatives therefore go through the same passes
and the same expansions. What differs is the alternative that a step names as its reason,
since that is looked up in written order. Unit links are written down one by one in that
order, so their traces may differ in their steps; but a unit closure is what is in reach
in the unit part, where the sets of alternatives are again the same. And they stay the
same in what a restriction keeps, so both cuts of a reduction preserve all of this. -/

namespace GrammarFixpoint

/-- The step without its reason. -/
def Step.unexplained (step : Step) : Step := { step with explanation := "" }

def Trace.unexplained (trace : Trace) : Trace := trace.map Step.unexplained

/-- The value with all that the steps show but their reasons. -/
def Traced.unexplained {α : Type} (result : Traced α) : Traced α :=
  { result with trace := result.trace.unexplained }

theorem Traced.unexplained_eq_iff {α : Type} {result other : Traced α} :
    result.unexplained = other.unexplained ↔
      result.value = other.value ∧ result.trace.unexplained = other.trace.unexplained := by
  rw [unexplained, unexplained, mk.injEq]

def Growth.unexplained (growth : Growth) : Growth := { growth with explanation := "" }

theorem Trace.unexplained_ofGrowths (phase : Phase) (label : String) (growths : List Growth) :
    (Trace.ofGrowths phase label growths).unexplained =
      Trace.ofGrowths phase label (growths.map Growth.unexplained) := by
  rw [Trace.unexplained, Trace.ofGrowths, Trace.ofGrowths, List.zipIdx_map, List.map_map,
    List.map_map]
  rfl

theorem Trace.unexplained_append (trace later : Trace) :
    Trace.unexplained (trace ++ later) = trace.unexplained ++ later.unexplained :=
  List.map_append

/-- Rules of one variable with the same set of alternatives. -/
structure Rule.Alike (rule other : Rule) : Prop where
  left : rule.left = other.left
  mem_alternatives : ∀ alternative,
    alternative ∈ rule.alternatives ↔ alternative ∈ other.alternatives

/-! ## Passes -/

/-- What a pass shows apart from the alternatives it has chosen. -/
def Pass.outline (pass : Pass) : Growth := ⟨pass.admitted, "", pass.licenses.map License.left⟩

namespace Saturation

variable {c : Criterion} {rules others : List Rule}

/-- Which alternative admits a variable may differ, but not whether one does. -/
theorem left_license? {rule other : Rule} (alike : rule.Alike other) (admitted : NameSet) :
    (license? c admitted rule).map License.left = (license? c admitted other).map License.left := by
  have admits (rule : Rule) : (license? c admitted rule).map License.left =
      if rule.alternatives.any (·.all (c.qualifies admitted)) then some rule.left else none := by
    rw [license?, Option.map_map, ← List.isSome_find?]
    cases rule.alternatives.find? fun alternative => alternative.all (c.qualifies admitted) <;> rfl
  have any : rule.alternatives.any (·.all (c.qualifies admitted)) =
      other.alternatives.any (·.all (c.qualifies admitted)) := by
    rw [Bool.eq_iff_iff, List.any_eq_true, List.any_eq_true]
    simp only [alike.mem_alternatives]
  rw [admits, admits, any, alike.left]

theorem lefts_licenses (same : List.Forall₂ Rule.Alike rules others) (admitted : NameSet) :
    (rules.filterMap (license? c admitted)).map License.left =
      (others.filterMap (license? c admitted)).map License.left := by
  rw [List.map_filterMap, List.map_filterMap]
  induction same with
  | nil => rfl
  | cons alike _ ih => rw [List.filterMap_cons, List.filterMap_cons, left_license? alike, ih]

theorem grown_eq (same : List.Forall₂ Rule.Alike rules others) (admitted : NameSet) :
    grown c admitted rules = grown c admitted others := by
  rw [grown, grown, lefts_licenses same]

theorem waiting_alike (same : List.Forall₂ Rule.Alike rules others) (admitted : NameSet) :
    List.Forall₂ Rule.Alike (waiting admitted rules) (waiting admitted others) := by
  induction same with
  | nil => exact .nil
  | cons alike _ ih =>
    simp only [waiting, List.filter_cons, alike.left] at ih ⊢
    split
    · exact .cons alike ih
    · exact ih

/-- Pass by pass the same variables are admitted. -/
theorem outlines_passes (same : List.Forall₂ Rule.Alike rules others) (limit : Nat)
    (admitted : NameSet) :
    (passes c limit admitted rules).map Pass.outline =
      (passes c limit admitted others).map Pass.outline := by
  induction limit generalizing admitted rules others with
  | zero => rfl
  | succ limit ih =>
    have lefts := lefts_licenses (c := c) same admitted
    by_cases idle : rules.filterMap (license? c admitted) = []
    · rw [idle, List.map_nil, eq_comm, List.map_eq_nil_iff] at lefts
      rw [passes_of_nil idle, passes_of_nil lefts]
    · have busy : others.filterMap (license? c admitted) ≠ [] := by
        intro idle'
        rw [idle', List.map_nil, List.map_eq_nil_iff] at lefts
        exact idle lefts
      rw [passes_of_ne_nil idle, passes_of_ne_nil busy, List.map_cons, List.map_cons,
        ← grown_eq same, ih (waiting_alike same _), Pass.outline, Pass.outline, lefts]

theorem outlines_shown {passes later : List Pass}
    (same : passes.map Pass.outline = later.map Pass.outline) :
    (shown passes).map Pass.outline = (shown later).map Pass.outline := by
  cases passes with
  | nil => rw [List.map_eq_nil_iff.mp same.symm]
  | cons pass passes =>
    cases later with
    | nil => cases same
    | cons => exact same

end Saturation

namespace Grammar

/-- The alternatives of a variable by name. -/
def choices (g : Grammar) (left : String) : List (List String) :=
  (g.alternatives left).map (List.map Symbol.name)

/-- Each variable has the same alternatives by name, in whatever order and however often. -/
structure SameChoices (a b : Grammar) : Prop where
  start : a.start = b.start
  variableNames : a.variableNames = b.variableNames
  mem_choices : ∀ left ∈ a.variableNames, ∀ names, names ∈ a.choices left ↔ names ∈ b.choices left

theorem sameChoices_iff {a b : Grammar} :
    a.SameChoices b ↔ a.start = b.start ∧ a.variableNames = b.variableNames ∧
      ∀ left ∈ a.variableNames, a.choices left ⊆ b.choices left ∧ b.choices left ⊆ a.choices left := by
  constructor
  · intro h
    refine ⟨h.start, h.variableNames, fun left mem => ⟨fun names => ?_, fun names => ?_⟩⟩
    · exact (h.mem_choices left mem names).mp
    · exact (h.mem_choices left mem names).mpr
  · rintro ⟨start, variableNames, each⟩
    refine ⟨start, variableNames, fun left mem names => ⟨?_, ?_⟩⟩
    · exact fun own => (each left mem).1 own
    · exact fun own => (each left mem).2 own

instance (a b : Grammar) : Decidable (a.SameChoices b) := decidable_of_iff' _ sameChoices_iff

/-- The same by symbol. -/
structure Alike (a b : Grammar) : Prop where
  start : a.start = b.start
  mem_table : ∀ left, left ∈ a.table ↔ left ∈ b.table
  mem_alternatives : ∀ left alternative,
    alternative ∈ a.alternatives left ↔ alternative ∈ b.alternatives left

variable {a b a' b' : Grammar}

theorem WellFormed.mem_alternatives_iff_names {g : Grammar} (hg : g.WellFormed) {left : String}
    {alternative : Alternative} :
    alternative ∈ g.alternatives left ↔
      ∃ names ∈ g.choices left, names.map (Symbol.classify g.table.contains) = alternative := by
  conv => lhs; rw [← hg.classify_names]
  exact List.mem_map

/-- The classes of symbols follow from the variables, which are the same. -/
theorem SameChoices.alike (h : a.SameChoices b) (ha : a.WellFormed) (hb : b.WellFormed) :
    a.Alike b := by
  have known (left : String) : left ∈ a.table ↔ left ∈ b.table := by
    rw [← mem_variableNames, ← mem_variableNames, h.variableNames]
  have classes : a.table.contains = b.table.contains := by
    funext name
    rw [Bool.eq_iff_iff, Std.ExtTreeMap.contains_iff_mem, Std.ExtTreeMap.contains_iff_mem, known]
  refine ⟨h.start, known, fun left alternative => ?_⟩
  by_cases mem : left ∈ a.variableNames
  · rw [ha.mem_alternatives_iff_names, hb.mem_alternatives_iff_names, classes]
    simp only [h.mem_choices left mem]
  · rw [mem_variableNames] at mem
    constructor
    · intro own
      exact absurd (mem_table_of_mem_alternatives own) mem
    · intro own
      exact absurd ((known left).mpr (mem_table_of_mem_alternatives own)) mem

theorem sortedRules_eq (g : Grammar) :
    g.sortedRules = g.variableNames.map fun left => ⟨left, g.alternatives left⟩ := by
  rw [← lefts_sortedRules, List.map_map]
  refine ((List.map_congr_left fun rule mem => ?_).trans (List.map_id _)).symm
  obtain ⟨-, own, -⟩ := (Saturation.candidates_sortedRules rule).mp mem
  rw [Function.comp_apply, ← own, id_eq]

namespace Alike

variable (h : a.Alike b)
include h

theorem variableNames : a.variableNames = b.variableNames := by
  refine NameSet.eq_of_ascending a.variableNames_ascending b.variableNames_ascending ?_
  intro name
  rw [mem_variableNames, mem_variableNames, h.mem_table]

theorem terminalNames : a.terminalNames = b.terminalNames := by
  refine NameSet.eq_of_ascending a.terminalNames_ascending b.terminalNames_ascending ?_
  intro name
  simp only [mem_terminalNames, h.mem_alternatives]

theorem sameChoices : a.SameChoices b := by
  refine ⟨h.start, h.variableNames, fun left _ names => ?_⟩
  simp only [choices, List.mem_map, h.mem_alternatives]

theorem sortedRules : List.Forall₂ Rule.Alike a.sortedRules b.sortedRules := by
  rw [sortedRules_eq, sortedRules_eq, h.variableNames, List.forall₂_map_left_iff,
    List.forall₂_map_right_iff, List.forall₂_same]
  exact fun left _ => ⟨rfl, h.mem_alternatives left⟩

theorem saturate (c : Criterion) : (a.saturate c).unexplained = (b.saturate c).unexplained := by
  have run : (Saturation.run c a).map Pass.outline = (Saturation.run c b).map Pass.outline := by
    rw [Saturation.run, Saturation.run, h.sortedRules.length_eq]
    exact Saturation.outlines_passes h.sortedRules _ _
  have value (g : Grammar) : (g.saturate c).value =
      (((Saturation.run c g).map Pass.outline).getLast?.map Growth.reached).getD ∅ := by
    rw [List.getLast?_map, Option.map_map]
    rfl
  have trace (g : Grammar) : (g.saturate c).trace.unexplained =
      Trace.ofGrowths c.phase c.phase.label
        ((Saturation.shown (Saturation.run c g)).map Pass.outline) := by
    rw [Grammar.saturate, Trace.unexplained_ofGrowths, List.map_map]
    conv => rhs; rw [← List.zipIdx_map_fst 1 (Saturation.shown (Saturation.run c g)), List.map_map]
    rfl
  rw [Traced.unexplained_eq_iff, value, value, trace, trace, run, Saturation.outlines_shown run]
  exact ⟨rfl, rfl⟩

theorem newIn (left : String) (reached : NameSet) :
    Reachability.newIn (a.alternatives left) reached =
      Reachability.newIn (b.alternatives left) reached := by
  refine NameSet.eq_of_ascending (Reachability.newIn_ascending _ _)
    (Reachability.newIn_ascending _ _) ?_
  intro name
  simp only [Reachability.mem_newIn, h.mem_alternatives]

/-- The same variable is expanded next and exposes the same variables. -/
theorem expansions (limit : Nat) (reached pending : NameSet) :
    Reachability.expansions a limit reached pending =
      Reachability.expansions b limit reached pending := by
  induction limit generalizing reached pending with
  | zero => rfl
  | succ limit ih =>
    rw [Reachability.expansions, Reachability.expansions]
    cases pending.toList with
    | nil => rfl
    | cons left others => simp only [h.newIn left, ih]

theorem reachable : a.reachable.unexplained = b.reachable.unexplained := by
  have run : Reachability.run a = Reachability.run b := by
    rw [Reachability.run, Reachability.run, ← length_variableNames, ← length_variableNames,
      h.variableNames, h.start, h.expansions]
  have growth : Growth.unexplained ∘ Reachability.growth a =
      Growth.unexplained ∘ Reachability.growth b := rfl
  simp only [Grammar.reachable, Traced.unexplained, Trace.unexplained_ofGrowths, List.map_cons,
    List.map_map, run, growth, Reachability.begin, h.start]

theorem unitPart (origin : String) : (a.unitPart origin).Alike (b.unitPart origin) := by
  refine ⟨rfl, fun left => ?_, fun left alternative => ?_⟩
  · rw [mem_table_unitPart, mem_table_unitPart, h.mem_table]
  · rw [alternatives_unitPart, alternatives_unitPart, List.mem_filter, List.mem_filter,
      h.mem_alternatives]

theorem unitClosure_value (origin : String) :
    (a.unitClosure origin).value = (b.unitClosure origin).value := by
  rw [unitClosure_eq_reachable, unitClosure_eq_reachable]
  exact (Traced.unexplained_eq_iff.mp (h.unitPart origin).reachable).1

theorem unitClosures_value : a.unitClosures.value = b.unitClosures.value := by
  simp only [unitClosures, List.map_map, Function.comp_def, h.variableNames, h.unitClosure_value]

theorem transition (set : NameSet) : a.transition set = b.transition set := by
  rw [Grammar.transition, Grammar.transition, h.variableNames]

/-- What is kept within a set of variables is the same set of alternatives. -/
theorem restricted (ha : a.WellFormed) (hb : b.WellFormed) {keep : NameSet}
    (cut : Restricted a a' keep) (cut' : Restricted b b' keep) : a'.Alike b' := by
  have kept (left : String) : left ∈ a'.table ↔ left ∈ b'.table := by
    rw [cut.mem_table_iff, cut'.mem_table_iff, ha.mem_order, hb.mem_order, h.mem_table]
  refine ⟨by rw [cut.start, cut'.start, h.start], kept, fun left alternative => ?_⟩
  rw [cut.mem_alternatives_iff, cut'.mem_alternatives_iff, kept, h.mem_alternatives]

theorem eliminateUseless (ha : a.WellFormed) (hb : b.WellFormed) :
    (∃ start, a.eliminateUseless = .error (.emptyLanguage start) ∧
      b.eliminateUseless = .error (.emptyLanguage start)) ∨
    ∃ r r' : Traced Grammar, a.eliminateUseless = .ok r ∧ b.eliminateUseless = .ok r' ∧
      r.value.Alike r'.value ∧ r.trace.unexplained = r'.trace.unexplained := by
  obtain ⟨value, before⟩ : a.terminating.value = b.terminating.value ∧
      a.terminating.trace.unexplained = b.terminating.trace.unexplained :=
    Traced.unexplained_eq_iff.mp (h.saturate .terminating)
  by_cases start : a.start ∈ a.terminating.value
  · obtain ⟨productive, reduced, cuts, eq⟩ := eliminateUseless_eq_ok ha start
    rw [h.start, value] at start
    obtain ⟨productive', reduced', cuts', eq'⟩ := eliminateUseless_eq_ok hb start
    have first : productive.Alike productive' := h.restricted ha hb cuts.first (value ▸ cuts'.first)
    obtain ⟨reached, behind⟩ := Traced.unexplained_eq_iff.mp first.reachable
    have second : reduced.Alike reduced' :=
      first.restricted cuts.first.wellFormed cuts'.first.wellFormed cuts.second
        (reached ▸ cuts'.second)
    refine .inr ⟨_, _, eq, eq', second, ?_⟩
    rw [Trace.unexplained_append, Trace.unexplained_append, before, value, h.transition]
    exact congrArg (_ ++ Step.unexplained _ :: ·) behind
  · refine .inl ⟨a.start, eliminateUseless_eq_error start, ?_⟩
    rw [h.start, value] at start
    rw [h.start]
    exact eliminateUseless_eq_error start

end Alike

/-- Order and repeats of alternatives show in nothing but the reasons that the steps of the
set analyses give and in the way that unit closures are gone through. Reductions fail alike,
or leave grammars that again differ in order and repeats at most. -/
theorem choices_indistinguishable (ha : a.Arises) (hb : b.Arises) (same : a.SameChoices b) :
    a.terminating.unexplained = b.terminating.unexplained ∧
    a.nullable.unexplained = b.nullable.unexplained ∧
    a.reachable.unexplained = b.reachable.unexplained ∧
    (∀ origin, (a.unitClosure origin).value = (b.unitClosure origin).value) ∧
    a.unitClosures.value = b.unitClosures.value ∧
    ((∃ start, a.eliminateUseless = .error (.emptyLanguage start) ∧
      b.eliminateUseless = .error (.emptyLanguage start)) ∨
    ∃ r r' : Traced Grammar, a.eliminateUseless = .ok r ∧ b.eliminateUseless = .ok r' ∧
      r.value.SameChoices r'.value ∧ r.value.terminalNames = r'.value.terminalNames ∧
      r.trace.unexplained = r'.trace.unexplained) := by
  have h := same.alike ha.wellFormed hb.wellFormed
  refine ⟨h.saturate .terminating, h.saturate .nullable, h.reachable, h.unitClosure_value,
    h.unitClosures_value, ?_⟩
  rcases h.eliminateUseless ha.wellFormed hb.wellFormed with
    empty | ⟨r, r', reduce, reduce', alike, trace⟩
  · exact .inl empty
  · exact .inr ⟨r, r', reduce, reduce', alike.sameChoices, alike.terminalNames, trace⟩

/-- Two texts of which the second has other first alternatives and repeats some. The reasons
of the first pass are others then, and the closure of `S` takes in `B` before `A`. -/
theorem choices_indistinguishable_of_shuffled :
    ∃ a b r r', ofText "S -> A | B\nA -> a | S\nB -> b | c" = .ok a ∧
      ofText "S -> B | A\nB -> c | b | c\nA -> S | a" = .ok b ∧
      a.terminating.trace ≠ b.terminating.trace ∧
      a.terminating.unexplained = b.terminating.unexplained ∧
      (a.unitClosure "S").trace.unexplained ≠ (b.unitClosure "S").trace.unexplained ∧
      a.unitClosures.value = b.unitClosures.value ∧
      a.eliminateUseless = .ok r ∧ b.eliminateUseless = .ok r' ∧ r.value.SameChoices r'.value ∧
      r.trace.unexplained = r'.trace.unexplained := by
  have shown : (ofText "S -> A | B\nA -> a | S\nB -> b | c").toOption.map (fun a =>
      ((ofText "S -> B | A\nB -> c | b | c\nA -> S | a").toOption.map (fun b =>
        decide (a.SameChoices b ∧ a.terminating.trace ≠ b.terminating.trace ∧
          (a.unitClosure "S").trace.unexplained ≠ (b.unitClosure "S").trace.unexplained)),
        decide (a.start ∈ a.terminating.value))) = some (some true, true) := by decide
  obtain ⟨a, read, shown⟩ := exists_ok_of_shown shown
  simp only [Prod.mk.injEq] at shown
  obtain ⟨shown', productive⟩ := shown
  obtain ⟨b, read', shown'⟩ := exists_ok_of_shown shown'
  obtain ⟨same, reasons, links⟩ := of_decide_eq_true shown'
  obtain ⟨terminating, -, -, -, closures, reductions⟩ :=
    choices_indistinguishable (.built (.text read)) (.built (.text read')) same
  rcases reductions with ⟨start, failed, -⟩ | ⟨r, r', reduce, reduce', choices, -, trace⟩
  · obtain ⟨_, _, _, reduced⟩ := eliminateUseless_eq_ok (Built.text read).wellFormed
      (of_decide_eq_true productive)
    rw [reduced] at failed
    cases failed
  · exact ⟨a, b, r, r', read, read', reasons, terminating, links, closures, reduce, reduce',
      choices, trace⟩

end Grammar

end GrammarFixpoint
