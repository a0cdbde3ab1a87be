import GrammarFixpoint.Grammar.Builder
import GrammarFixpoint.Proofs.Numbering
import Mathlib.Data.List.Basic
import Mathlib.Data.List.Induction

/-! What refused calls leave behind. A call is refused by one of its names, and all of them
are verified before anything is entered, so a refused call leaves the builder as it was and
whether a call is refused does not depend on the builder. The rules that a builder holds
are then those of the accepted productions, grouped by their left-hand sides, and closing it
is closing the definition with the same productions and the same start symbol. Calls for a
start symbol and calls for productions change different parts, and of the former only the
last one counts, so it makes no difference how the two kinds are mixed. -/

namespace GrammarFixpoint

/-! ## Entries -/

namespace Entries

/-- The rules that productions make, entered one after the other. -/
def ofProductions (productions : List Production) : Entries :=
  productions.foldl (fun entries p => entries.enter p.left p.right) empty

theorem ofProductions_append (productions : List Production) (p : Production) :
    ofProductions (productions ++ [p]) = (ofProductions productions).enter p.left p.right := by
  rw [ofProductions, List.foldl_append]
  rfl

variable {productions : List Production} {left : String}

theorem mem_table_enter {entries : Entries} {other : String} {right : List String} :
    left ∈ (entries.enter other right).table ↔ left ∈ entries.table ∨ left = other := by
  rw [enter, Std.ExtTreeMap.mem_alter]
  by_cases same : other = left
  · simp [same]
  · simp [same, Ne.symm same]

theorem mem_table_ofProductions :
    left ∈ (ofProductions productions).table ↔ left ∈ productions.map Production.left := by
  induction productions using List.reverseRecOn with
  | nil => simp [ofProductions, empty]
  | append_singleton productions p ih =>
    rw [ofProductions_append, mem_table_enter, ih, List.map_append, List.mem_append]
    simp

/-- The left-hand sides stand in the order in which they came first. -/
theorem order_ofProductions :
    (ofProductions productions).order = (productions.map Production.left).eraseDups := by
  induction productions using List.reverseRecOn with
  | nil => rfl
  | append_singleton productions p ih =>
    rw [ofProductions_append, enter, List.map_append, List.eraseDups_append, ← ih]
    by_cases known : p.left ∈ productions.map Production.left
    · have nothing : [p.left].removeAll (productions.map Production.left) = [] := by
        simpa [List.removeAll] using known
      simp [mem_table_ofProductions.mpr known, nothing]
    · have new : [p.left].removeAll (productions.map Production.left) = [p.left] := by
        simpa [List.removeAll] using known
      simp [mt mem_table_ofProductions.mp known, new, List.eraseDups_cons]

/-- Every left-hand side has its own right-hand sides, in the order in which they came. -/
theorem getD_table_ofProductions :
    (ofProductions productions).table.getD left [] =
      (productions.filter (·.left == left)).map Production.right := by
  induction productions using List.reverseRecOn with
  | nil => simp [ofProductions, empty]
  | append_singleton productions p ih =>
    rw [ofProductions_append, enter, List.filter_append, List.map_append, ← ih,
      Std.ExtTreeMap.getD_alter]
    by_cases same : p.left = left
    · subst same
      simp [Std.ExtTreeMap.getD_eq_getD_getElem?]
    · simp [same]

theorem contains_table_ofProductions :
    (ofProductions productions).table.contains = (productions.map Production.left).contains := by
  funext left
  rw [Bool.eq_iff_iff, Std.ExtTreeMap.contains_iff_mem, mem_table_ofProductions,
    List.contains_iff_mem]

theorem alternatives_grammar (entries : Entries) (start left : String) :
    (entries.grammar start).alternatives left =
      (entries.table.getD left []).map (List.map (Symbol.classify entries.table.contains)) := by
  rw [Grammar.alternatives, grammar, Std.ExtTreeMap.getD_eq_getD_getElem?,
    Std.ExtTreeMap.getElem?_map, Std.ExtTreeMap.getD_eq_getD_getElem?]
  cases entries.table[left]? <;> rfl

/-- The rules that were entered are those that the productions add up to. -/
theorem grammar_ofProductions (start : String) (productions : List Production) :
    (ofProductions productions).grammar start = Grammar.ofProductions start productions := by
  have same : (ofProductions productions).order = (Grammar.ofProductions start productions).order := by
    rw [order_ofProductions, Grammar.order_ofProductions]
  have known {left : String} : left ∈ (ofProductions productions).order ↔
      left ∈ ((ofProductions productions).grammar start).table := by
    rw [same, Grammar.mem_order_ofProductions, Grammar.mem_table_ofProductions, grammar,
      Std.ExtTreeMap.mem_map, mem_table_ofProductions]
  refine Grammar.eq_of_alternatives known Grammar.mem_order_ofProductions rfl same ?_
  intro left
  rw [alternatives_grammar, Grammar.alternatives_ofProductions, getD_table_ofProductions,
    contains_table_ofProductions, List.map_map]
  rfl

end Entries

/-! ## One call -/

/-- What a declaration is answered, whatever has been declared before. -/
def Declaration.answer : Declaration → Except GrammarError Unit
  | .start _ => .ok ()
  | .production left right => (Production.checked left right).map fun _ => ()

namespace Builder

variable {builder : Builder}

/-- A second change goes on where the first one has left the builder, unless that was refused. -/
theorem run_bind {α β : Type} (first : Change α) (next : α → Change β) (builder : Builder) :
    (first >>= next).run.run builder =
      match first.run.run builder with
      | (.ok a, builder) => (next a).run.run builder
      | (.error e, builder) => (.error e, builder) := by
  rw [ExceptT.run_bind, StateT.run_bind]
  rcases first.run.run builder with ⟨e | a, last⟩ <;> rfl

theorem run_verify (name : String) :
    (verify name).run.run builder =
      (if isLegalName name then .ok () else .error (.invalidSymbol name), builder) := by
  unfold verify
  split <;> rfl

/-- The first illegal name ends the verification. -/
theorem run_forM_verify (names : List String) :
    (forM names verify).run.run builder =
      (match names.find? (!isLegalName ·) with
        | some name => .error (.invalidSymbol name)
        | none => .ok (), builder) := by
  induction names with
  | nil => rfl
  | cons name names ih =>
    rw [List.forM_cons, run_bind, run_verify, List.find?_cons]
    cases isLegalName name with
    | false => rfl
    | true => exact ih

/-- A rule is refused as its production is, and nothing is entered then. -/
theorem call_production (builder : Builder) (left : String) (right : List String) :
    builder.call (.production left right) =
      match Production.checked left right with
      | .error e => (.error e, builder)
      | .ok p => (.ok (), { builder with entries := builder.entries.enter p.left p.right }) := by
  have verified : (do verify left; right.forM verify : Change Unit).run.run builder =
      (match (left :: right).find? (!isLegalName ·) with
        | some name => .error (.invalidSymbol name)
        | none => .ok (), builder) := run_forM_verify (left :: right)
  rw [call, change, rule, ← bind_assoc, run_bind, verified, Production.checked]
  cases (left :: right).find? (!isLegalName ·) <;> rfl

theorem call_answer (builder : Builder) (declaration : Declaration) :
    (builder.call declaration).1 = declaration.answer := by
  cases declaration with
  | start name => rfl
  | production left right =>
    rw [call_production, Declaration.answer]
    cases Production.checked left right <;> rfl

/-- A refused call changes nothing. -/
theorem call_refused {declaration : Declaration} {e : GrammarError}
    (refused : (builder.call declaration).1 = .error e) : (builder.call declaration).2 = builder := by
  cases declaration with
  | start name => cases refused
  | production left right =>
    rw [call_production] at refused ⊢
    cases checked : Production.checked left right with
    | error e' => rfl
    | ok p => rw [checked] at refused; cases refused

/-! ## Builders of definitions -/

/-- The builder that holds the rules of a definition. -/
def ofDefinition (d : Definition) : Builder where
  entries := .ofProductions d.productions.toList
  start? := d.start?

/-- A call does to the rules what a declaration does to the productions. -/
theorem call_ofDefinition (d : Definition) (declaration : Declaration) :
    ((ofDefinition d).call declaration).2 =
      ofDefinition ((d.declare declaration).toOption.getD d) := by
  cases declaration with
  | start name => rfl
  | production left right =>
    rw [call_production, Definition.declare]
    cases Production.checked left right with
    | error e => rfl
    | ok p =>
      simp [ofDefinition, Except.map, Except.toOption, Entries.ofProductions_append]

theorem calls_ofDefinition (d : Definition) (declarations : List Declaration) :
    ((ofDefinition d).calls declarations).2 = ofDefinition (d.declareAccepted declarations) := by
  induction declarations generalizing d with
  | nil => rfl
  | cons declaration declarations ih =>
    show (((ofDefinition d).call declaration).2.calls declarations).2 = _
    rw [call_ofDefinition]
    exact ih _

/-- Closing the builder is closing the definition. -/
theorem close_ofDefinition (d : Definition) : (ofDefinition d).close = d.grammar := by
  have first : (Entries.ofProductions d.productions.toList).order.head? =
      d.productions.toList.head?.map Production.left := by
    rw [Entries.order_ofProductions]
    cases d.productions.toList <;> simp [List.eraseDups_cons]
  have asked : ((ofDefinition d).start? <|> (ofDefinition d).entries.order.head?) =
      (d.start? <|> d.productions.toList.head?.map Production.left) :=
    congrArg (d.start? <|> ·) first
  rw [close, Definition.grammar, Grammar.build, asked]
  cases d.start? <|> d.productions.toList.head?.map Production.left with
  | none => rfl
  | some start =>
    simp only [ofDefinition, Entries.grammar_ofProductions, Entries.mem_table_ofProductions,
      Grammar.mem_table_ofProductions]

/-- A builder that nobody has called yet is that of the empty definition. -/
theorem calls_empty (declarations : List Declaration) :
    (empty.calls declarations).2 = ofDefinition (Definition.empty.declareAccepted declarations) :=
  calls_ofDefinition Definition.empty declarations

/-! ## Many calls -/

theorem calls_answers (builder : Builder) (declarations : List Declaration) :
    (builder.calls declarations).1 = declarations.map Declaration.answer := by
  induction declarations generalizing builder with
  | nil => rfl
  | cons declaration declarations ih =>
    have first := builder.call_answer declaration
    rw [List.map_cons, ← first, ← ih (builder.call declaration).2]
    rfl

theorem kept_eq_filter (builder : Builder) (declarations : List Declaration) :
    builder.kept declarations = declarations.filter (·.answer.isOk) := by
  rw [kept, calls_answers]
  induction declarations with
  | nil => rfl
  | cons declaration declarations ih =>
    rw [List.map_cons, List.zip_cons_cons, List.filter_cons, List.filter_cons, ← ih]
    cases declaration.answer <;> rfl

end Builder

namespace Declaration

/-- The production of a declaration, legal or not. -/
def rule? : Declaration → Option Production
  | .start _ => none
  | .production left right => some ⟨left, right⟩

/-- Declarations that are not refused give the productions that are accepted. -/
theorem filterMap_rule?_filter (declarations : List Declaration) :
    (declarations.filter (·.answer.isOk)).filterMap rule? = accepted declarations := by
  rw [List.filterMap_filter, accepted]
  apply List.filterMap_congr
  intro declaration _
  cases declaration with
  | start name => rfl
  | production left right =>
    cases checked : Production.checked left right with
    | error e => simp [answer, production?, checked, Except.map, Except.isOk, Except.toBool, Except.toOption]
    | ok p =>
      obtain ⟨rfl, -⟩ := Production.checked_eq_ok_iff.mp checked
      simp [answer, production?, rule?, checked, Except.map, Except.isOk, Except.toBool, Except.toOption]

/-- No declaration of a start symbol is refused. -/
theorem filterMap_start?_filter (declarations : List Declaration) :
    (declarations.filter (·.answer.isOk)).filterMap start? = declarations.filterMap start? := by
  rw [List.filterMap_filter]
  apply List.filterMap_congr
  intro declaration _
  cases declaration with
  | start name => rfl
  | production left right => simp [start?]

end Declaration

namespace Builder

open Declaration

/-- What comes out of a builder are the productions that were accepted and the start symbol
that was asked for last. -/
theorem close_calls (declarations : List Declaration) :
    (empty.calls declarations).2.close =
      Grammar.build (declarations.filterMap Declaration.start?).getLast? (accepted declarations) := by
  rw [calls_empty, close_ofDefinition, Definition.grammar, (Definition.declareAccepted_eq _ _).1,
    (Definition.declareAccepted_eq _ _).2]
  simp [Definition.empty, accepted]

/-- A refused call leaves the builder as it was, so the calls that are kept are all answered
and lead to the same grammar or error. So do any calls of which the same productions are
kept and that ask for the same start symbol last. It is what the definition of the same
declarations leads to. -/
theorem close_of_kept (declarations : List Declaration) :
    (∀ (builder : Builder) (declaration : Declaration) (e : GrammarError),
      (builder.call declaration).1 = .error e → (builder.call declaration).2 = builder) ∧
    (∀ answer ∈ (empty.calls (empty.kept declarations)).1, answer = .ok ()) ∧
    (empty.calls (empty.kept declarations)).2.close = (empty.calls declarations).2.close ∧
    (∀ others : List Declaration,
      (empty.kept others).filterMap rule? = (empty.kept declarations).filterMap rule? →
      (others.filterMap Declaration.start?).getLast? = (declarations.filterMap Declaration.start?).getLast? →
      (empty.calls others).2.close = (empty.calls declarations).2.close) ∧
    (empty.calls declarations).2.close = (Definition.empty.declareAccepted declarations).grammar := by
  refine ⟨fun builder declaration e => call_refused, ?_, ?_, ?_, ?_⟩
  · intro answer mem
    rw [calls_answers, kept_eq_filter] at mem
    obtain ⟨declaration, inside, rfl⟩ := List.mem_map.mp mem
    have kept := (List.mem_filter.mp inside).2
    cases answered : declaration.answer with
    | error e => rw [answered] at kept; cases kept
    | ok _ => rfl
  · have again : accepted (empty.kept declarations) = accepted declarations := by
      rw [← filterMap_rule?_filter, kept_eq_filter, List.filter_filter]
      simp [filterMap_rule?_filter]
    rw [close_calls, close_calls, again, kept_eq_filter, filterMap_start?_filter]
  · intro others rules start
    rw [kept_eq_filter, kept_eq_filter, filterMap_rule?_filter, filterMap_rule?_filter] at rules
    rw [close_calls, close_calls, rules, start]
  · rw [calls_empty, close_ofDefinition]

/-- The rules that are kept of `Grammar.partlyRefused`, with other calls between them. -/
def interleaved : List Declaration :=
  [.production "T" ["a", "S"], .start "T", .production "S" ["b", "T"], .production "U" ["c", "λ"],
    .start "S", .production "T" []]

theorem close_of_kept_of_interleaved :
    (empty.call (.production "A|B" ["a"])).1 = .error (.invalidSymbol "A|B") ∧
    (empty.call (.production "A|B" ["a"])).2 = empty ∧
    (empty.kept interleaved).filterMap rule? =
      (empty.kept Grammar.partlyRefused).filterMap rule? ∧
    (interleaved.filterMap Declaration.start?).getLast? =
      (Grammar.partlyRefused.filterMap Declaration.start?).getLast? ∧
    (empty.calls interleaved).2.close = (empty.calls Grammar.partlyRefused).2.close ∧
    (empty.calls Grammar.partlyRefused).2.close.toOption.map Grammar.start = some "S" := by
  obtain ⟨untouched, -, -, same, -⟩ := close_of_kept Grammar.partlyRefused
  have refused : (empty.call (.production "A|B" ["a"])).1 = .error (.invalidSymbol "A|B") := by
    decide
  have rules : (empty.kept interleaved).filterMap rule? =
      (empty.kept Grammar.partlyRefused).filterMap rule? := by
    decide
  exact ⟨refused, untouched empty _ _ refused, rules, rfl, same interleaved rules rfl, by decide⟩

end Builder

end GrammarFixpoint
