import GrammarFixpoint.Proofs.SymbolNames
import GrammarFixpoint.Proofs.Worklists

/-! Sets of names as they are written down. A name may hold commas and braces and may be
the sign of the empty set, so nothing that stands between or around names is missing from
the names themselves, except for the space behind each comma. A text with braces falls
apart at its spaces, and what is left over in front of each is a name with one comma
behind it, whatever commas it ends with. The sign of the empty set has no brace in front.

The steps of all analyses show in this way what they have admitted so far, and each shows
variables of one grammar, so a step tells its set without its grammar. -/

namespace GrammarFixpoint

open Text

/-! Lists of texts. -/

section Joined

variable {α : Type} {front : List α} {sep : α} {pieces pieces' : List (List α)}

theorem mem_intercalate_cons_cons (front : List α) (sep : α) (first second : List α)
    (pieces : List (List α)) : sep ∈ (front ++ [sep]).intercalate (first :: second :: pieces) := by
  simp [List.intercalate_cons_cons]

/-- Pieces are told from the joined text by the last item of what is put between them, where
that item stands nowhere else. -/
theorem eq_of_intercalate [BEq α] [LawfulBEq α] (outside : sep ∉ front)
    (free : ∀ piece ∈ pieces, sep ∉ piece) (free' : ∀ piece ∈ pieces', sep ∉ piece)
    (ne : pieces ≠ []) (ne' : pieces' ≠ [])
    (eq : (front ++ [sep]).intercalate pieces = (front ++ [sep]).intercalate pieces') :
    pieces = pieces' := by
  induction pieces generalizing pieces' with
  | nil => exact absurd rfl ne
  | cons piece pieces ih =>
    obtain ⟨piece', pieces', rfl⟩ := List.exists_cons_of_ne_nil ne'
    obtain ⟨first, free⟩ := List.forall_mem_cons.mp free
    obtain ⟨first', free'⟩ := List.forall_mem_cons.mp free'
    cases pieces with
    | nil =>
      cases pieces' with
      | nil => simpa using eq
      | cons second' pieces' =>
        have inside := mem_intercalate_cons_cons front sep piece' second' pieces'
        rw [← eq, List.intercalate_singleton] at inside
        exact absurd inside first
    | cons second pieces =>
      cases pieces' with
      | nil =>
        have inside := mem_intercalate_cons_cons front sep piece second pieces
        rw [eq, List.intercalate_singleton] at inside
        exact absurd inside first'
      | cons second' pieces' =>
        have parted (piece rest : List α) :
            piece ++ (front ++ [sep]) ++ rest = (piece ++ front) ++ sep :: rest := by simp
        rw [List.intercalate_cons_cons, List.intercalate_cons_cons, parted, parted] at eq
        obtain ⟨same, later⟩ := eq_of_append_cons (by simp [first, outside])
          (by simp [first', outside]) eq
        rw [List.append_cancel_right same,
          ih free free' (List.cons_ne_nil _ _) (List.cons_ne_nil _ _) later]

end Joined

/-! Lists of names. -/

theorem toList_setNotation {names : List String} (ne : names ≠ []) :
    (setNotation names).toList =
      '\x7b' :: ([',', ' '].intercalate (names.map String.toList) ++ ['\x7d']) := by
  unfold setNotation
  split
  · exact absurd rfl ne
  · simp

/-- Only the empty list is written without a brace in front. -/
theorem setNotation_eq_nil {names : List String} (eq : setNotation names = setNotation []) :
    names = [] := by
  by_contra ne
  have text := congrArg String.toList eq
  rw [toList_setNotation ne] at text
  exact absurd (List.cons.inj text).1 (by decide)

/-- Lists of names without spaces are told apart by how they are written. -/
theorem eq_of_setNotation {names others : List String} (free : ∀ name ∈ names, ' ' ∉ name.toList)
    (free' : ∀ name ∈ others, ' ' ∉ name.toList) (eq : setNotation names = setNotation others) :
    names = others := by
  by_cases empty : names = []
  · subst empty
    exact (setNotation_eq_nil eq.symm).symm
  by_cases empty' : others = []
  · subst empty'
    exact setNotation_eq_nil eq
  have text := congrArg String.toList eq
  rw [toList_setNotation empty, toList_setNotation empty'] at text
  have inner := List.append_cancel_right (List.cons.inj text).2
  have outside : ' ' ∉ [','] := by decide
  have pieces := eq_of_intercalate outside (List.forall_mem_map.mpr free)
    (List.forall_mem_map.mpr free') (by simpa using empty) (by simpa using empty') inner
  exact List.map_injective_iff.mpr (fun _ _ => String.toList_inj.mp) pieces

theorem space_not_mem_of_isLegalName {name : String} (legal : isLegalName name = true) :
    ' ' ∉ name.toList :=
  (isLegalName_iff.mp legal).1.space_not_mem

/-! Steps. -/

namespace Grammar

/-- The traces of single analyses: of the grammar, and of what the first cut of a reduction
leaves of it. -/
inductive AnalysisTrace (g : Grammar) : Trace → Prop where
  | saturation (c : Criterion) : AnalysisTrace g (g.saturate c).trace
  | reachability : AnalysisTrace g g.reachable.trace
  | unitClosure {origin : String} (known : origin ∈ g.table) :
      AnalysisTrace g (g.unitClosure origin).trace
  | remainder {productive : Grammar} (start : g.start ∈ g.terminating.value)
      (cut : g.restrict g.terminating.value = .ok productive) :
      AnalysisTrace g productive.reachable.trace

/-- The variables that have been admitted when a step is written down: those that the steps of
its analysis call new up to there, and between the two halves of a reduction those of the first. -/
inductive Admits (g : Grammar) : Step → NameSet → Prop where
  | step {steps : Trace} (trace : g.AnalysisTrace steps) {index : Nat} {step : Step}
      (place : steps[index]? = some step) : Admits g step (Trace.admitted (steps.take (index + 1)))
  | transition : Admits g (g.transition g.terminating.value) (Trace.admitted g.terminating.trace)

variable {g g' : Grammar} {steps : Trace} {step step' : Step} {set set' : NameSet}

/-- A single analysis leaves a trace that can be checked against a set of variables. -/
theorem AnalysisTrace.audits (hg : g.WellFormed) (trace : g.AnalysisTrace steps) :
    ∃ phase label result, Audits phase label steps result ∧
      ∀ name ∈ result, isLegalName name = true := by
  cases trace with
  | saturation c =>
    exact ⟨_, _, _, g.audits_saturate c, fun _ mem => hg.legal_left (mem_table_of_mem_saturate mem)⟩
  | reachability =>
    exact ⟨_, _, _, g.audits_reachable, fun _ mem =>
      hg.legal_left (hg.closed.mem_table_of_mem_reachable mem)⟩
  | unitClosure known =>
    exact ⟨_, _, _, g.audits_unitClosure _, fun _ mem =>
      hg.legal_left (hg.mem_table_of_mem_unitClosure known mem)⟩
  | @remainder productive start cut =>
    have hp := ((supports_terminating start).restricted hg cut).wellFormed
    exact ⟨_, _, _, productive.audits_reachable, fun _ mem =>
      hp.legal_left (hp.closed.mem_table_of_mem_reachable mem)⟩

/-- A step shows what has been admitted, and these are names that can be declared. -/
theorem Admits.shown (hg : g.WellFormed) (admits : g.Admits step set) :
    step.admitted = setNotation set.toList ∧ ∀ name ∈ set.toList, isLegalName name = true := by
  cases admits with
  | @step steps trace index _ place =>
    obtain ⟨phase, label, result, audits, legal⟩ := trace.audits hg
    refine ⟨audits.snapshots index step place, ?_⟩
    intro name mem
    rw [Std.ExtTreeSet.mem_toList, Trace.admitted, NameSet.mem_ofList, List.mem_flatMap] at mem
    obtain ⟨earlier, taken, new⟩ := mem
    refine legal name ?_
    rw [← audits.union, Trace.admitted, NameSet.mem_ofList, List.mem_flatMap]
    exact ⟨earlier, List.mem_of_mem_take taken, new⟩
  | transition =>
    have audits := g.audits_saturate .terminating
    have union : Trace.admitted g.terminating.trace = g.terminating.value := audits.union
    rw [union]
    exact ⟨rfl, fun name mem =>
      hg.legal_left (mem_table_of_mem_saturate (Std.ExtTreeSet.mem_toList.mp mem))⟩

theorem AnalysisTrace.admits (trace : g.AnalysisTrace steps) (mem : step ∈ steps) :
    ∃ set, g.Admits step set := by
  obtain ⟨index, place⟩ := List.mem_iff_getElem?.mp mem
  exact ⟨_, .step trace place⟩

/-- Each step of what an analysis answers has a set that is admitted there. -/
theorem exists_admits {algorithm : Algorithm} {outcome : Outcome}
    (h : g.outcome algorithm = .ok outcome) : ∀ step ∈ outcome.steps, ∃ set, g.Admits step set := by
  intro step mem
  cases algorithm with
  | terminating =>
    cases h
    exact (AnalysisTrace.saturation .terminating).admits mem
  | nullable =>
    cases h
    exact (AnalysisTrace.saturation .nullable).admits mem
  | reachable =>
    cases h
    exact AnalysisTrace.reachability.admits mem
  | unit =>
    cases h
    obtain ⟨⟨origin, closure⟩, listed, own⟩ := List.mem_flatMap.mp mem
    obtain ⟨origin, known, eq⟩ := List.mem_map.mp listed
    cases eq
    exact (AnalysisTrace.unitClosure (mem_variableNames.mp known)).admits own
  | useless =>
    obtain ⟨result, reduce, rfl⟩ := outcome_useless h
    obtain ⟨productive, start, cut, -, trace⟩ := exists_stages reduce
    have split : step ∈ g.terminating.trace ++
        g.transition g.terminating.value :: productive.reachable.trace := trace ▸ mem
    rcases List.mem_append.mp split with first | later
    · exact (AnalysisTrace.saturation .terminating).admits first
    rcases List.mem_cons.mp later with rfl | second
    · exact ⟨_, .transition⟩
    · exact (AnalysisTrace.remainder start cut).admits second

end Grammar

/-- Lists of names that can be declared are told apart by how they are written as sets, and steps
that look the same in this respect have admitted the same variables, also where they belong to
two analyses or two grammars. -/
theorem setNotation_unambiguous :
    (∀ names others : List String, (∀ name ∈ names ++ others, TakesLeft name ∨ TakesRight name) →
      setNotation names = setNotation others → names = others) ∧
    ∀ g g' : Grammar, g.Arises → g'.Arises →
      (∀ algorithm outcome, g.outcome algorithm = .ok outcome →
        ∀ step ∈ outcome.steps, ∃ set, g.Admits step set) ∧
      ∀ step step' set set', g.Admits step set → g'.Admits step' set' →
        step.admitted = step'.admitted → set = set' := by
  constructor
  · intro names others accepted eq
    have free : ∀ name ∈ names ++ others, ' ' ∉ name.toList := by
      intro name mem
      refine space_not_mem_of_isLegalName ?_
      rcases accepted name mem with left | right
      · exact takesLeft_iff.mp left
      · exact takesRight_iff.mp right
    obtain ⟨free, free'⟩ := List.forall_mem_append.mp free
    exact eq_of_setNotation free free' eq
  · intro g g' hg hg'
    refine ⟨fun _ _ => Grammar.exists_admits, ?_⟩
    intro step step' set set' admits admits' same
    obtain ⟨shown, legal⟩ := admits.shown hg.wellFormed
    obtain ⟨shown', legal'⟩ := admits'.shown hg'.wellFormed
    have lists : set.toList = set'.toList :=
      eq_of_setNotation (fun name mem => space_not_mem_of_isLegalName (legal name mem))
        (fun name mem => space_not_mem_of_isLegalName (legal' name mem))
        (shown.symm.trans (same.trans shown'))
    apply Std.ExtTreeSet.ext_mem
    intro name
    rw [← Std.ExtTreeSet.mem_toList, lists, Std.ExtTreeSet.mem_toList]

/-- A comma at the end of a name is not one between two names, and the first pass over one
grammar admits what two passes over another do. -/
theorem setNotation_unambiguous_of_lookalikes :
    setNotation ["A,", "∅"] ≠ setNotation ["A", ",∅"] ∧
      ∃ g g', Grammar.ofText "\x7b, -> a\n∅ -> b" = .ok g ∧
        Grammar.ofText "\x7b, -> ∅\n∅ -> λ" = .ok g' ∧
          Trace.admitted (g.terminating.trace.take 1) =
            Trace.admitted (g'.nullable.trace.take 2) := by
  obtain ⟨lists, steps⟩ := setNotation_unambiguous
  have legal : ∀ name ∈ ["A,", "∅"] ++ ["A", ",∅"], isLegalName name = true := by decide
  have shown : (Grammar.ofText "\x7b, -> a\n∅ -> b").toOption.map
      (fun g => g.terminating.trace[0]?.map Step.admitted) = some (some "\x7b\x7b,, ∅\x7d") := by
    decide
  have shown' : (Grammar.ofText "\x7b, -> ∅\n∅ -> λ").toOption.map
      (fun g => g.nullable.trace[1]?.map Step.admitted) = some (some "\x7b\x7b,, ∅\x7d") := by
    decide
  obtain ⟨g, read, shown⟩ := exists_ok_of_shown shown
  obtain ⟨g', read', shown'⟩ := exists_ok_of_shown shown'
  obtain ⟨step, place, text⟩ := Option.map_eq_some_iff.mp shown
  obtain ⟨step', place', text'⟩ := Option.map_eq_some_iff.mp shown'
  obtain ⟨-, same⟩ := steps g g' (.built (.text read)) (.built (.text read'))
  refine ⟨?_, g, g', read, read', ?_⟩
  · intro eq
    exact absurd (lists _ _ (fun name mem => .inl (takesLeft_iff.mpr (legal name mem))) eq)
      (by decide)
  · exact same step step' _ _ (.step (.saturation .terminating) place)
      (.step (.saturation .nullable) place') (text.trans text'.symm)

end GrammarFixpoint
