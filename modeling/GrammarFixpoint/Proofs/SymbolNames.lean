import GrammarFixpoint.Proofs.RoundTrip

/-! Who can name a symbol. A declaration asks of a name that it is legal, on either side. In
a text a name is what the separators of words, alternatives and sides leave over, and these
part a name at all that makes one illegal. They part it at one thing more, the arrow of one
character, which declarations let pass because they only look for the arrow of two. That one
character is all that keeps the names, and with them the grammars, of the two apart. -/

namespace GrammarFixpoint

/-- Some production with this left-hand side is accepted. -/
def TakesLeft (name : String) : Prop :=
  ∃ (d next : Definition) (right : List String), d.declare (.production name right) = .ok next

/-- Some production with this name in its right-hand side is accepted. -/
def TakesRight (name : String) : Prop :=
  ∃ (d next : Definition) (left : String) (right : List String),
    d.declare (.production left right) = .ok next ∧ name ∈ right

/-- Some text is read as a grammar with a symbol of this name. -/
def Written (name : String) : Prop :=
  ∃ text g, Grammar.ofText text = .ok g ∧ name ∈ g.variableNames ++ g.terminalNames

variable {name : String}

/-! Names that are declared. -/

theorem Definition.exists_declare_production_iff (d : Definition) (left : String)
    (right : List String) :
    (∃ next, d.declare (.production left right) = .ok next) ↔
      ∀ name ∈ left :: right, isLegalName name = true := by
  rw [Definition.declare]
  constructor
  · intro h
    obtain ⟨next, accepted⟩ := h
    cases checked : Production.checked left right with
    | error e => rw [checked] at accepted; cases accepted
    | ok p => exact (Production.checked_eq_ok_iff.mp checked).2
  · intro legal
    rw [Production.checked_eq_ok_iff.mpr ⟨rfl, legal⟩]
    exact ⟨_, rfl⟩

theorem takesLeft_iff : TakesLeft name ↔ isLegalName name = true := by
  constructor
  · intro h
    obtain ⟨d, next, right, accepted⟩ := h
    exact (d.exists_declare_production_iff name right).mp ⟨next, accepted⟩ name List.mem_cons_self
  · intro legal
    obtain ⟨next, accepted⟩ := (Definition.empty.exists_declare_production_iff name []).mpr
      (List.forall_mem_singleton.mpr legal)
    exact ⟨.empty, next, [], accepted⟩

theorem takesRight_iff : TakesRight name ↔ isLegalName name = true := by
  constructor
  · intro h
    obtain ⟨d, next, left, right, accepted, mem⟩ := h
    exact (d.exists_declare_production_iff left right).mp ⟨next, accepted⟩ name
      (List.mem_cons_of_mem left mem)
  · intro legal
    obtain ⟨next, accepted⟩ := (Definition.empty.exists_declare_production_iff name [name]).mpr
      (List.forall_mem_cons.mpr ⟨legal, List.forall_mem_singleton.mpr legal⟩)
    exact ⟨.empty, next, name, [name], accepted, List.mem_singleton_self name⟩

/-! Names that are written. -/

namespace Grammar

variable {g : Grammar}

theorem Readable.of_mem_names (h : g.Readable) (mem : name ∈ g.variableNames ++ g.terminalNames) :
    GrammarFixpoint.Readable name := by
  have hg := h.wellFormed
  refine ⟨?_, (hg.readable_iff.mp h).2 name mem⟩
  rcases List.mem_append.mp mem with mem | mem
  · exact hg.legal_left (mem_variableNames.mp mem)
  · obtain ⟨left, alternative, own, occurs⟩ := mem_terminalNames.mp mem
    have legal := hg.legal_symbol own occurs
    exact legal

/-- The grammars that texts are read as are those that are read back from their print. -/
theorem exists_text_iff : (∃ text, ofText text = .ok g) ↔ g.Readable := by
  constructor
  · intro h
    obtain ⟨text, read⟩ := h
    exact .of_numberedLines read
  · intro readable
    exact ⟨g.text, readable.ofText_text⟩

/-- One rule for the empty string makes a grammar. -/
theorem build_single (name : String) :
    build none [⟨name, []⟩] = .ok (ofProductions name [⟨name, []⟩]) := by
  have known : name ∈ [Production.mk name []].map Production.left := List.mem_singleton_self name
  refine build_eq_ok_iff.mpr ⟨name, rfl, rfl, mem_table_ofProductions.mpr known, ?_, ?_⟩
  · rw [size_ofProductions]
    exact Nat.le_of_ble_eq_true rfl
  · rw [length_terminalNames_ofProductions]
    exact Nat.zero_le _

end Grammar

/-- What is written in a text is read back, and a rule for the name alone is such a text. -/
theorem written_iff : Written name ↔ Readable name := by
  constructor
  · intro h
    obtain ⟨text, g, read, mem⟩ := h
    exact (Grammar.exists_text_iff.mp ⟨text, read⟩).of_mem_names mem
  · intro readable
    have single : (Grammar.ofProductions name [⟨name, []⟩]).Readable :=
      .of_build (Grammar.build_single name) (by simpa using readable)
    obtain ⟨text, read⟩ := Grammar.exists_text_iff.mpr single
    refine ⟨text, _, read, List.mem_append_left _ ?_⟩
    rw [Grammar.mem_variableNames, Grammar.mem_table_ofProductions]
    exact List.mem_singleton_self name

/-- The names that are written are the names that are declared but for those with the arrow of
one character, and a declared grammar with its start symbol first is written unless it has such
a name. -/
theorem written_iff_declared_without_sign (name : String) :
    (Written name ↔ TakesLeft name ∧ '→' ∉ name.toList) ∧
    (Written name ↔ TakesRight name ∧ '→' ∉ name.toList) ∧
    ∀ g : Grammar, g.Built → g.order.head? = some g.start →
      ((∃ text, Grammar.ofText text = .ok g) ↔
        ∀ symbol ∈ g.variableNames ++ g.terminalNames, '→' ∉ symbol.toList) := by
  refine ⟨?_, ?_, ?_⟩
  · rw [written_iff, takesLeft_iff, Readable]
  · rw [written_iff, takesRight_iff, Readable]
  · intro g built start
    rw [Grammar.exists_text_iff, built.wellFormed.readable_iff, and_iff_right start]

/-- Halves of arrows are names of both. -/
theorem written_iff_declared_without_sign_of_halves :
    Written "<-" ∧ ∃ g, Grammar.ofDeclarations
        [.production "S-" [">", "<-", "-"], .production "S-" []] = .ok g ∧
      g.order.head? = some g.start ∧ ∃ text, Grammar.ofText text = .ok g := by
  obtain ⟨written, -, texts⟩ := written_iff_declared_without_sign "<-"
  have shown : (Grammar.ofDeclarations [.production "S-" [">", "<-", "-"],
      .production "S-" []]).toOption.map (fun g => decide (g.order.head? = some g.start ∧
        ∀ symbol ∈ g.variableNames ++ g.terminalNames, '→' ∉ symbol.toList)) = some true := by
    decide
  obtain ⟨g, declared, shown⟩ := exists_ok_of_shown shown
  obtain ⟨start, free⟩ := of_decide_eq_true shown
  exact ⟨written.mpr ⟨⟨.empty, _, [], rfl⟩, by decide⟩, g, declared, start,
    (texts g (.declarations declared) start).mpr free⟩

/-- The arrow of one character is a name on either side that no text can hold. -/
theorem not_every_declared_name_written :
    TakesLeft "→" ∧ TakesRight "→" ∧ ¬ Written "→" ∧
      ∃ g, Grammar.ofDeclarations [.production "A" ["→"]] = .ok g ∧
        g.order.head? = some g.start ∧ ¬ ∃ text, Grammar.ofText text = .ok g := by
  have unreadable : ¬ Readable "→" := fun readable => readable.2 (by decide)
  have shown : (Grammar.ofDeclarations [.production "A" ["→"]]).toOption.map
      (fun g => decide (g.order.head? = some g.start ∧ "→" ∈ g.variableNames ++ g.terminalNames)) =
        some true := by
    decide
  obtain ⟨g, declared, shown⟩ := exists_ok_of_shown shown
  obtain ⟨start, mem⟩ := of_decide_eq_true shown
  refine ⟨takesLeft_iff.mpr rfl, takesRight_iff.mpr rfl, mt written_iff.mp unreadable, g, declared,
    start, ?_⟩
  exact fun text => unreadable ((Grammar.exists_text_iff.mp text).of_mem_names mem)

end GrammarFixpoint
