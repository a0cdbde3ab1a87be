import GrammarFixpoint.Proofs.Audit
import GrammarFixpoint.Proofs.Printing
import Mathlib.Data.List.Nodup
import Mathlib.Logic.Relation

/-! The links of a unit closure. A link is only recorded where its target is new, and its
source is a variable under expansion and so in the closure already. Hence each member but
the first is the target of one link, whose source was there before: the links are a tree
over the closure, and following them back from a member leads to the variable that the
closure belongs to. The text of a step names both ends of its link, for a name holds no
space. Steps of all closures are told apart by their labels: the number behind the last
underscore holds digits only, so it can be cut off, whatever the name in front of it looks
like. -/

namespace GrammarFixpoint

/-- Links from source to target that span a set: the root and the targets make it up, no
member is a target twice, and every source is the root or the target of an earlier link. -/
structure Spans (root : String) (links : List (String × String)) (members : NameSet) : Prop where
  mem_iff : ∀ name, name ∈ members ↔ name = root ∨ name ∈ links.map Prod.snd
  root_not_mem : root ∉ links.map Prod.snd
  nodup : (links.map Prod.snd).Nodup
  earlier : ∀ index source target, links[index]? = some (source, target) →
    source = root ∨ source ∈ (links.take index).map Prod.snd

/-- A chain of links. -/
abbrev Linked (links : List (String × String)) : String → String → Prop :=
  Relation.ReflTransGen fun source target => (source, target) ∈ links

/-- Going back along the links, a member leads to the root. -/
theorem Spans.linked {root name : String} {links : List (String × String)} {members : NameSet}
    (h : Spans root links members) (mem : name ∈ members) : Linked links root name := by
  have of_target (index : Nat) : ∀ source target, links[index]? = some (source, target) →
      Linked links root target := by
    -- The source of a link is the target of an earlier one, so the index goes down.
    induction index using Nat.strongRecOn with
    | ind index ih =>
      intro source target own
      have link : (source, target) ∈ links := List.mem_of_getElem? own
      rcases h.earlier index source target own with rfl | before
      · exact .single link
      · obtain ⟨⟨first, _⟩, listed, rfl⟩ := List.mem_map.mp before
        obtain ⟨index', at_index⟩ := List.getElem?_of_mem listed
        rw [List.getElem?_take] at at_index
        split at at_index
        · next lt => exact (ih index' lt _ _ at_index).tail link
        · cases at_index
  rcases (h.mem_iff name).mp mem with rfl | target
  · exact .refl
  · obtain ⟨⟨source, _⟩, listed, rfl⟩ := List.mem_map.mp target
    obtain ⟨index, own⟩ := List.getElem?_of_mem listed
    exact of_target index _ _ own

/-! ## Labels -/

/-- A numbered label tells both the label and the number. -/
theorem numberedLabel_inj {label label' : String} {number number' : Nat} :
    numberedLabel label number = numberedLabel label' number' ↔
      label = label' ∧ number = number' := by
  constructor
  · intro eq
    have digits (n : Nat) : '_' ∉ (toString n).toList.reverse := by
      intro mem
      rw [List.mem_reverse, Nat.toString_eq_ofList_toDigits, String.toList_ofList] at mem
      exact absurd (Nat.isDigit_of_mem_toDigits (by decide) (by decide) mem) (by decide)
    -- Read from behind, the number ends at the first underscore.
    have backwards := congrArg (fun text : String => text.toList.reverse) eq
    simp only [numberedLabel, String.toList_append, List.reverse_append] at backwards
    obtain ⟨number_eq, label_eq⟩ := Text.eq_of_append_cons (digits _) (digits _) backwards
    refine ⟨String.toList_inj.mp (List.reverse_injective label_eq), ?_⟩
    have value := congrArg (fun text => Nat.ofDigitChars 10 text 0) (List.reverse_injective number_eq)
    simpa [Nat.toString_eq_ofList_toDigits] using value
  · rintro ⟨rfl, rfl⟩
    rfl

theorem UnitClosure.label_inj {origin other : String} : label origin = label other ↔ origin = other := by
  rw [label, label, String.append_left_inj, String.append_right_inj]

namespace Audits

variable {phase : Phase} {label : String} {steps : Trace} {result : NameSet}

/-- No label of a trace stands in it twice. -/
theorem nodup_labels (h : Audits phase label steps result) :
    (steps.map Step.iteration).Nodup := by
  rw [h.labels]
  exact (List.nodup_range' 1).map fun _ _ eq => (numberedLabel_inj.mp eq).2

theorem exists_number (h : Audits phase label steps result) {iteration : String}
    (mem : iteration ∈ steps.map Step.iteration) :
    ∃ number : Nat, iteration = label ++ "_" ++ toString number := by
  rw [h.labels] at mem
  obtain ⟨number, -, rfl⟩ := List.mem_map.mp mem
  exact ⟨number, rfl⟩

end Audits

/-- No label of a closure stands in another, and none stands in its own twice. -/
theorem Grammar.nodup_labels_unitClosures (g : Grammar) :
    (g.unitClosures.trace.map Step.iteration).Nodup := by
  rw [trace_unitClosures, List.map_flatMap, List.nodup_flatMap]
  refine ⟨fun origin _ => (g.audits_unitClosure origin).nodup_labels, ?_⟩
  refine (variableNames_nodup g).imp fun {origin other} apart iteration mem mem' => apart ?_
  obtain ⟨number, rfl⟩ := (g.audits_unitClosure origin).exists_number mem
  obtain ⟨number', eq⟩ := (g.audits_unitClosure other).exists_number mem'
  exact UnitClosure.label_inj.mp (numberedLabel_inj.mp eq).1

/-! ## Closures -/

/-- The step adds the target of a link from the set before it, and its text tells both ends
of the link. -/
structure LinksNext (g : Grammar) (before : NameSet) (source target : String) (step : Step) :
    Prop where
  unit_mem : [Symbol.variable target] ∈ g.alternatives source
  source_mem : source ∈ before
  fresh : target ∉ before
  added : step.newVariables = [target]
  explanation_iff : ∀ first ∈ g.variableNames, ∀ last,
    (step.explanation = "unit production " ++ first ++ " -> " ++ last ↔
      first = source ∧ last = target)

/-- The first step admits the variable itself, every later one the target of a link, and
the links span the closure. -/
structure RecordsTree (g : Grammar) (origin : String) (steps : Trace) (members : NameSet)
    (links : List (String × String)) : Prop where
  length : steps.length = members.size
  first : ∃ step, steps[0]? = some step ∧ step.newVariables = [origin] ∧
    step.explanation = "zero-length chain " ++ origin ++ " ⇒* " ++ origin
  snapshots : ∀ index step, steps[index]? = some step →
    step.admitted = setNotation (Trace.admitted (steps.take (index + 1))).toList
  next : ∀ index step, steps[index + 1]? = some step → ∃ source target,
    links[index]? = some (source, target) ∧
      LinksNext g (Trace.admitted (steps.take (index + 1))) source target step
  spans : Spans origin links members
  chain : ∀ name ∈ members, Linked links origin name

namespace UnitClosure

variable {g : Grammar} {origin : String}

/-- The ends of a link. -/
def ends (link : UnitLink) : String × String := (link.source, link.target)

/-- The text of a link tells its ends. -/
theorem explanation_growth_iff {link : UnitLink} {first last : String}
    (free : ' ' ∉ link.source.toList) (free' : ' ' ∉ first.toList) :
    (growth link).explanation = "unit production " ++ first ++ " -> " ++ last ↔
      first = link.source ∧ last = link.target := by
  have single : Alternative.text [.variable link.target] = link.target := by
    simp [Alternative.text, Symbol.name]
  show "unit production " ++ productionText link.source [.variable link.target] = _ ↔ _
  rw [productionText, single, Text.append_arrow_eq, Text.append_arrow_eq, String.append_assoc,
    String.append_right_inj]
  constructor
  · intro eq
    obtain ⟨source, target⟩ := Text.eq_of_append_space free free' eq
    exact ⟨source.symm, ((String.append_right_inj _).mp target).symm⟩
  · rintro ⟨rfl, rfl⟩
    rfl

theorem mem_origin_insertMany {name : String} {names : List String} :
    name ∈ (NameSet.ofList [origin]).insertMany names ↔ name = origin ∨ name ∈ names := by
  rw [Std.ExtTreeSet.mem_insertMany_list, NameSet.mem_ofList, List.mem_singleton,
    List.contains_iff_mem]

/-- The links of a closure span it. -/
theorem spans_run (g : Grammar) (origin : String) :
    Spans origin ((run g origin).map ends) (g.unitClosure origin).value := by
  have grows := g.grows_unitClosure origin
  have targets (links : List UnitLink) : (links.map ends).map Prod.snd = links.map UnitLink.target := by
    rw [List.map_map]
    rfl
  refine ⟨fun name => ?_, ?_, ?_, fun index source target own => ?_⟩
  · rw [targets, grows.last_eq, mem_origin_insertMany]
  · rw [targets]
    intro mem
    obtain ⟨link, listed, root⟩ := List.mem_map.mp mem
    refine grows.accounts.fresh (growth link) (List.mem_map_of_mem listed) origin ?_ (by simp)
    simp [growth, root]
  · rw [targets, List.Nodup, List.pairwise_map]
    have apart := grows.accounts.disjoint
    rw [List.pairwise_map] at apart
    refine apart.imp fun {link other} new => ?_
    simpa [growth] using new
  · rw [List.getElem?_map, Option.map_eq_some_iff] at own
    obtain ⟨link, at_index, eq⟩ := own
    cases eq
    rw [← List.map_take, targets]
    exact mem_origin_insertMany.mp (grows.at_index at_index).2.1

/-- The set before a step is the variable with the targets linked so far. -/
theorem admitted_take (g : Grammar) (origin : String) (index : Nat) :
    Trace.admitted ((g.unitClosure origin).trace.take (index + 1)) =
      (NameSet.ofList [origin]).insertMany (((run g origin).take index).map UnitLink.target) := by
  rw [Grammar.unitClosure, Trace.admitted_take, List.take_succ_cons, List.flatMap_cons,
    Std.ExtTreeSet.insertMany_append, ← List.map_take, List.flatMap_map, List.map_eq_flatMap,
    NameSet.ofList, Std.ExtTreeSet.ofList_eq_insertMany_empty]
  rfl

/-- The step that is written down for a link. -/
theorem linksNext_of_step (hg : g.WellFormed) {index : Nat} {step : Step}
    (h : (g.unitClosure origin).trace[index + 1]? = some step) :
    ∃ source target, ((run g origin).map ends)[index]? = some (source, target) ∧
      LinksNext g (Trace.admitted ((g.unitClosure origin).trace.take (index + 1))) source target
        step := by
  obtain ⟨link, at_index, rfl⟩ := Trace.exists_of_later_step h
  obtain ⟨unit, source, fresh⟩ := (g.grows_unitClosure origin).at_index at_index
  have free := hg.space_not_mem (Grammar.mem_table_of_mem_alternatives unit)
  rw [admitted_take]
  refine ⟨link.source, link.target, ?_, unit, source, fresh, rfl, fun first mem last => ?_⟩
  · rw [List.getElem?_map, at_index]
    rfl
  · exact explanation_growth_iff free (hg.space_not_mem (Grammar.mem_variableNames.mp mem))

end UnitClosure

namespace Grammar

variable {g : Grammar}

theorem length_unitClosure_trace (g : Grammar) (origin : String) :
    (g.unitClosure origin).trace.length = (g.unitClosure origin).value.size := by
  have spans := UnitClosure.spans_run g origin
  have once : (origin :: ((UnitClosure.run g origin).map UnitClosure.ends).map Prod.snd).Nodup :=
    List.nodup_cons.mpr ⟨spans.root_not_mem, spans.nodup⟩
  have size := NameSet.length_eq_size once fun name => by rw [List.mem_cons, spans.mem_iff]
  rw [← size, unitClosure, Trace.length_ofGrowths]
  simp

theorem recordsTree_unitClosure (hg : g.WellFormed) (origin : String) :
    RecordsTree g origin (g.unitClosure origin).trace (g.unitClosure origin).value
      ((UnitClosure.run g origin).map UnitClosure.ends) where
  length := g.length_unitClosure_trace origin
  first := ⟨_, rfl, rfl, rfl⟩
  snapshots := (g.audits_unitClosure origin).snapshots
  next := fun _ _ h => UnitClosure.linksNext_of_step hg h
  spans := UnitClosure.spans_run g origin
  chain := fun _ mem => (UnitClosure.spans_run g origin).linked mem

/-- The trace of a unit closure is a tree of links over it. The closures of all variables
put their traces one behind the other in ascending order, and no label comes twice. -/
theorem unit_traces_span (h : g.Arises) :
    (∀ origin, ∃ links, RecordsTree g origin (g.unitClosure origin).trace
      (g.unitClosure origin).value links) ∧
    g.unitClosures.trace = (g.variableNames.flatMap fun origin => (g.unitClosure origin).trace) ∧
    g.variableNames.Pairwise (· < ·) ∧
    (g.unitClosures.trace.map Step.iteration).Nodup :=
  ⟨fun origin => ⟨_, recordsTree_unitClosure h.wellFormed origin⟩, g.trace_unitClosures,
    g.variableNames_ascending, g.nodup_labels_unitClosures⟩

/-- Names that look like the end of a label, in a cycle with a repeated link and one to
itself. -/
theorem unit_traces_span_of_tangled :
    ∃ g, ofText "A -> A)_1 | A | B | B\nA)_1 -> A\nB -> a A | A)_1" = .ok g ∧
      (∃ links, RecordsTree g "A" (g.unitClosure "A").trace (g.unitClosure "A").value links ∧
        Linked links "A" "B") ∧
      (g.unitClosure "A").value.size = 3 ∧
      (g.unitClosures.trace.map Step.iteration).Nodup := by
  have shown : ((ofText "A -> A)_1 | A | B | B\nA)_1 -> A\nB -> a A | A)_1").toOption.map fun g =>
      ((g.unitClosure "A").trace.length, (g.unitClosure "A").value.contains "B")) =
      some (3, true) := by decide
  obtain ⟨g, read, shown⟩ := exists_ok_of_shown shown
  obtain ⟨length, mem⟩ := Prod.mk.inj shown
  obtain ⟨trees, -, -, labels⟩ := unit_traces_span (.built (.text read))
  obtain ⟨links, tree⟩ := trees "A"
  exact ⟨g, read, ⟨links, tree, tree.chain "B" (Std.ExtTreeSet.contains_iff_mem.mp mem)⟩,
    tree.length.symm.trans length, labels⟩

end Grammar

end GrammarFixpoint
