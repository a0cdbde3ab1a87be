import GrammarFixpoint.Proofs.WellFormed

/-! The grammars that there are. One is built by declarations, of which the first
refused one ends the definition or all refused ones are passed over, or it is
read from a text or from lines. Each way collects legal productions only, so
what is built is well-formed. -/

namespace GrammarFixpoint

@[simp] theorem mapError_ok {α ε ε' : Type} (f : ε → ε') (x : α) :
    (Except.ok x : Except ε α).mapError f = .ok x := rfl

@[simp] theorem mapError_error {α ε ε' : Type} (f : ε → ε') (e : ε) :
    (Except.error e : Except ε α).mapError f = .error (f e) := rfl

@[simp] theorem mapError_eq_ok_iff {α ε ε' : Type} {f : ε → ε'} {x : Except ε α} {a : α} :
    x.mapError f = .ok a ↔ x = .ok a := by
  cases x <;> simp

/-- Two steps succeed together where the first does and then the second. -/
theorem bind_eq_ok_iff {α β ε : Type} {x : Except ε α} {f : α → Except ε β} {b : β} :
    x >>= f = .ok b ↔ ∃ a, x = .ok a ∧ f a = .ok b := by
  cases x <;> simp [bind, Except.bind]

/-- What is shown of a result shows that there is one. -/
theorem exists_ok_of_shown {α β ε : Type} {x : Except ε α} {view : α → β} {shown : β}
    (h : x.toOption.map view = some shown) : ∃ a, x = .ok a ∧ view a = shown := by
  cases x with
  | error e => cases h
  | ok a => exact ⟨a, rfl, Option.some.inj h⟩

/-- A run over a list succeeds where every single step does. -/
theorem mapM_eq_ok_iff {α β ε : Type} {f : α → Except ε β} {xs : List α} {ys : List β} :
    xs.mapM f = .ok ys ↔ xs.map f = ys.map .ok := by
  induction xs generalizing ys with
  | nil => cases ys <;> simp [pure, Except.pure]
  | cons x xs ih =>
    rw [List.mapM_cons, List.map_cons]
    cases first : f x with
    | error e => cases ys <;> simp [bind, Except.bind]
    | ok y =>
      cases rest : xs.mapM f with
      | error e =>
        cases ys with
        | nil => simp [bind, Except.bind]
        | cons y' ys =>
          have : xs.map f ≠ ys.map .ok := fun h => by simp [ih.mpr h] at rest
          simp [bind, Except.bind, this]
      | ok zs =>
        cases ys with
        | nil => simp [bind, Except.bind, pure, Except.pure]
        | cons y' ys =>
          have : zs = ys ↔ xs.map f = ys.map .ok := by rw [← ih, rest, Except.ok.injEq]
          simp [bind, Except.bind, pure, Except.pure, this]

theorem exists_of_mem_mapM {α β ε : Type} {f : α → Except ε β} {xs : List α} {ys : List β}
    (h : xs.mapM f = .ok ys) {y : β} (mem : y ∈ ys) : ∃ x ∈ xs, f x = .ok y := by
  apply List.mem_map.mp
  rw [mapM_eq_ok_iff.mp h]
  exact List.mem_map_of_mem mem

namespace Definition

/-- Every production accepted so far can be written into a rule. -/
def Legal (d : Definition) : Prop := ∀ p ∈ d.productions.toList, p.Legal

theorem legal_empty : empty.Legal := fun _ mem => absurd mem List.not_mem_nil

/-- One declaration that is accepted. -/
theorem Legal.declare {d next : Definition} (h : d.Legal) {declaration : Declaration}
    (step : d.declare declaration = .ok next) : next.Legal := by
  cases declaration with
  | start name =>
    cases step
    exact h
  | production left right =>
    rw [Definition.declare] at step
    cases checked : Production.checked left right with
    | error e => rw [checked] at step; cases step
    | ok p =>
      rw [checked] at step
      cases step
      intro other mem
      rw [Array.toList_push] at mem
      rcases List.mem_append.mp mem with old | new
      · exact h other old
      · rw [List.mem_singleton.mp new]
        exact Production.legal_of_checked checked

theorem Legal.declareAll {declarations : List Declaration} {d last : Definition} (h : d.Legal)
    (run : d.declareAll declarations = .ok last) : last.Legal := by
  induction declarations generalizing d with
  | nil =>
    cases run
    exact h
  | cons declaration declarations ih =>
    rw [Definition.declareAll, List.foldlM_cons] at run
    obtain ⟨next, step, rest⟩ := bind_eq_ok_iff.mp run
    exact ih (h.declare step) rest

theorem Legal.declareAccepted (declarations : List Declaration) {d : Definition} (h : d.Legal) :
    (d.declareAccepted declarations).Legal := by
  induction declarations generalizing d with
  | nil => exact h
  | cons declaration declarations ih =>
    rw [Definition.declareAccepted, List.foldl_cons]
    apply ih
    cases step : d.declare declaration with
    | error e => exact h
    | ok next => exact h.declare step

end Definition

/-- The production that a declaration adds. -/
def Declaration.production? : Declaration → Option Production
  | .start _ => none
  | .production left right => (Production.checked left right).toOption

/-- The start symbol that a declaration asks for. -/
def Declaration.start? : Declaration → Option String
  | .start name => some name
  | .production _ _ => none

namespace Definition

/-- Declarations add what they are accepted for, and the last start symbol counts. -/
theorem declareAccepted_eq (d : Definition) (declarations : List Declaration) :
    (d.declareAccepted declarations).productions.toList =
        d.productions.toList ++ declarations.filterMap Declaration.production? ∧
      (d.declareAccepted declarations).start? =
        (declarations.filterMap Declaration.start?).getLast?.or d.start? := by
  induction declarations generalizing d with
  | nil => simp [declareAccepted]
  | cons declaration declarations ih =>
    rw [declareAccepted, List.foldl_cons, ← declareAccepted, (ih _).1, (ih _).2]
    cases declaration with
    | start name =>
      simp only [declare, Except.toOption, Option.getD_some, Declaration.production?,
        Declaration.start?, List.filterMap_cons, List.getLast?_cons, true_and]
      cases (declarations.filterMap Declaration.start?).getLast? <;> rfl
    | production left right =>
      simp only [declare, Declaration.production?, Declaration.start?, List.filterMap_cons]
      cases Production.checked left right <;> simp [Except.map, Except.toOption]

/-- Where no declaration is refused, passing refused ones over makes no difference. -/
theorem declareAccepted_of_declareAll {declarations : List Declaration} {d last : Definition}
    (run : d.declareAll declarations = .ok last) : d.declareAccepted declarations = last := by
  induction declarations generalizing d with
  | nil =>
    cases run
    rfl
  | cons declaration declarations ih =>
    rw [declareAll, List.foldlM_cons] at run
    obtain ⟨next, step, rest⟩ := bind_eq_ok_iff.mp run
    rw [declareAccepted, List.foldl_cons, step]
    exact ih rest

/-- Legal productions are accepted in order. -/
theorem declareAll_declarations {ps : List Production} (legal : ∀ p ∈ ps, p.Legal)
    (d : Definition) :
    d.declareAll (ps.map Production.declaration) =
      .ok { d with productions := d.productions ++ ps.toArray } := by
  induction ps generalizing d with
  | nil => simp [declareAll, pure, Except.pure]
  | cons p ps ih =>
    obtain ⟨first, legal⟩ := List.forall_mem_cons.mp legal
    have accepted : d.declare p.declaration = .ok { d with productions := d.productions.push p } := by
      rw [Production.declaration, declare, Production.checked_eq_ok_iff.mpr ⟨rfl, first⟩]
      rfl
    rw [List.map_cons, declareAll, List.foldlM_cons, accepted]
    refine (ih legal _).trans ?_
    simp

end Definition

/-- Declaring a start symbol and legal productions closes the definition of just these. -/
theorem Grammar.ofDeclarations_of_legal {ps : List Production} (legal : ∀ p ∈ ps, p.Legal)
    (start : String) :
    ofDeclarations (.start start :: ps.map Production.declaration) = build (some start) ps := by
  have run := Definition.declareAll_declarations legal ⟨#[], some start⟩
  rw [ofDeclarations, Definition.declareAll, List.foldlM_cons]
  refine (congrArg (· >>= Definition.grammar) run).trans ?_
  simp [bind, Except.bind, Definition.grammar]

namespace RuleLine

/-- The productions of a line went through the same check as those of a definition. -/
theorem legal_of_productions {number : Nat} {line : List Char} {ps : List Production}
    (h : productions number line = .ok ps) : ∀ p ∈ ps, p.Legal := by
  obtain ⟨sides, -, read⟩ := bind_eq_ok_iff.mp h
  intro p mem
  obtain ⟨piece, -, step⟩ := exists_of_mem_mapM read mem
  obtain ⟨names, -, checked⟩ := bind_eq_ok_iff.mp step
  exact Production.legal_of_checked checked

end RuleLine

namespace Grammar

/-- The grammars that can be built. -/
inductive Built : Grammar → Prop where
  | declarations {declarations : List Declaration} {g : Grammar}
      (h : ofDeclarations declarations = .ok g) : Built g
  | accepted {declarations : List Declaration} {g : Grammar}
      (h : (Definition.empty.declareAccepted declarations).grammar = .ok g) : Built g
  | text {text : String} {g : Grammar} (h : ofText text = .ok g) : Built g
  | lines {lines : List String} {g : Grammar} (h : ofLines lines = .ok g) : Built g

theorem WellFormed.of_definition {d : Definition} (legal : d.Legal) {g : Grammar}
    (h : d.grammar = .ok g) : g.WellFormed :=
  .of_build h legal

/-- What lines add up to is a closed definition without a start symbol of its own. -/
theorem ofNumberedLines_eq_ok_iff {lines : List (List Char × Nat)} {g : Grammar} :
    ofNumberedLines lines = .ok g ↔
      ∃ read, lines.mapM (fun (line, number) => RuleLine.productions number line) = .ok read ∧
        build none read.flatten = .ok g :=
  bind_eq_ok_iff

theorem WellFormed.of_numberedLines {lines : List (List Char × Nat)} {g : Grammar}
    (h : ofNumberedLines lines = .ok g) : g.WellFormed := by
  obtain ⟨read, steps, close⟩ := ofNumberedLines_eq_ok_iff.mp h
  apply WellFormed.of_build close
  intro p mem
  obtain ⟨own, hown, hp⟩ := List.mem_flatten.mp mem
  obtain ⟨⟨line, number⟩, -, step⟩ := exists_of_mem_mapM steps hown
  exact RuleLine.legal_of_productions step p hp

theorem Built.wellFormed {g : Grammar} (built : g.Built) : g.WellFormed := by
  cases built with
  | declarations h =>
    obtain ⟨d, run, close⟩ := bind_eq_ok_iff.mp h
    exact .of_definition (Definition.legal_empty.declareAll run) close
  | accepted h => exact .of_definition (Definition.legal_empty.declareAccepted _) h
  | text h => exact .of_numberedLines h
  | lines h => exact .of_numberedLines h

end Grammar

end GrammarFixpoint
