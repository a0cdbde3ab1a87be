import GrammarFixpoint.Proofs.Reading
import GrammarFixpoint.Proofs.Reduction

/-! Grammars that stem from a text. Such a grammar may be reduced, printed and read
again any number of times, and it stays readable: reading gives back the very grammar
that was printed, and a reduction only takes rules and alternatives away. It never
takes the start symbol, which therefore goes on heading the order. A grammar that was
declared need not be readable: its text does not tell that the start symbol heads no
rule, and an arrow in a name parts the line that it stands in. Nothing else is lost. -/

namespace GrammarFixpoint.Grammar

variable {g next : Grammar}

/-- What a restriction keeps of readable rules is readable, and the start symbol
stays the first. -/
theorem Readable.restricted {keep : NameSet} (h : g.Readable) (cut : Restricted g next keep) :
    next.Readable := by
  refine ⟨cut.wellFormed, ?_, ?_⟩
  · have kept := (cut.mem_table_iff.mp cut.wellFormed.start_mem).2
    rw [cut.start] at kept
    obtain ⟨others, eq⟩ := List.head?_eq_some_iff.mp h.start_first
    have order := cut.order_eq
    rw [eq, List.filter_cons_of_pos (Std.ExtTreeSet.contains_iff_mem.mpr kept)] at order
    rw [order, cut.start, List.head?_cons]
  · intro rule mem
    have known := (mem_rules.mp mem).1
    have mem_table := cut.wellFormed.mem_order.mp known
    have old := h.rules ⟨rule.left, g.alternatives rule.left⟩
      (mem_rules.mpr ⟨(cut.mem_table_iff.mp mem_table).1, rfl⟩)
    have own := (mem_rules.mp mem).2
    refine ⟨old.left, own ▸ cut.wellFormed.alternatives_ne_nil mem_table, ?_⟩
    intro alternative alternative_mem
    rw [own] at alternative_mem
    exact old.alternatives alternative (cut.mem_alternatives_iff.mp alternative_mem).2.1

theorem Readable.reduced (h : g.Readable) {result : Traced Grammar}
    (reduce : g.eliminateUseless = .ok result) : result.value.Readable := by
  obtain ⟨productive, cuts⟩ := exists_cuts h.wellFormed reduce
  exact (h.restricted cuts.first).restricted cuts.second

/-- What can be done with a grammar to get another: reduce it, or write it out and
read it again. -/
inductive Revision (g : Grammar) : Grammar → Prop where
  | reduce {result : Traced Grammar} (h : g.eliminateUseless = .ok result) : Revision g result.value
  | text {next : Grammar} (h : ofText g.text = .ok next) : Revision g next
  | lines {next : Grammar} (h : ofLines g.snapshot.ruleLines = .ok next) : Revision g next

/-- Grammars that were read, and all that any number of steps makes of them. -/
inductive Stems : Grammar → Prop where
  | text {text : String} {g : Grammar} (h : ofText text = .ok g) : Stems g
  | lines {lines : List String} {g : Grammar} (h : ofLines lines = .ok g) : Stems g
  | step {g next : Grammar} (h : Stems g) (step : g.Revision next) : Stems next

theorem Readable.step (h : g.Readable) (step : g.Revision next) : next.Readable := by
  cases step with
  | reduce reduce => exact h.reduced reduce
  | text read => exact .of_numberedLines read
  | lines read => exact .of_numberedLines read

theorem Stems.readable (h : g.Stems) : g.Readable := by
  induction h with
  | text read => exact .of_numberedLines read
  | lines read => exact .of_numberedLines read
  | step _ step ih => exact ih.step step

/-- A grammar that stems from a text is read back from its print and from its lines,
with the same start symbol and the rules in the same order. -/
theorem Stems.read_back (h : g.Stems) :
    ofText g.text = .ok g ∧ ofLines g.snapshot.ruleLines = .ok g := by
  have readable := h.readable
  exact ⟨readable.ofText_text, readable.ofLines_ruleLines⟩

/-- Reduced, written as lines and read again. -/
theorem read_back_of_cycles : ∃ g result, ofText cycles = .ok g ∧ g.eliminateUseless = .ok result ∧
    ofText result.value.text = .ok result.value ∧
    ofLines result.value.snapshot.ruleLines = .ok result.value := by
  obtain ⟨g, result, read, reduce, -⟩ := ofText_cycles
  have stems : result.value.Stems := .step (.text read) (.reduce reduce)
  have again := Stems.read_back (.step stems (.lines (Stems.read_back stems).2))
  exact ⟨g, result, read, reduce, again⟩

/-! Declared grammars. -/

/-- What keeps a grammar from being readable. -/
theorem WellFormed.readable_iff (hg : g.WellFormed) :
    g.Readable ↔ g.order.head? = some g.start ∧
      ∀ name ∈ g.variableNames ++ g.terminalNames, '→' ∉ name.toList := by
  constructor
  · intro h
    refine ⟨h.start_first, ?_⟩
    intro name mem
    rcases List.mem_append.mp mem with mem | mem
    · have known := hg.mem_order.mpr (mem_variableNames.mp mem)
      exact (h.rules ⟨name, g.alternatives name⟩ (mem_rules.mpr ⟨known, rfl⟩)).left.2
    · obtain ⟨left, alternative, own, occurs⟩ := mem_terminalNames.mp mem
      have known := hg.mem_order.mpr (mem_table_of_mem_alternatives own)
      have rule := h.rules ⟨left, g.alternatives left⟩ (mem_rules.mpr ⟨known, rfl⟩)
      exact (rule.alternatives alternative own _ occurs).2
  · rintro ⟨start, free⟩
    refine ⟨hg, start, ?_⟩
    intro rule mem
    obtain ⟨known, own⟩ := mem_rules.mp mem
    have left := hg.mem_order.mp known
    refine ⟨⟨hg.legal_left left, free _ ?_⟩, own ▸ hg.alternatives_ne_nil left, ?_⟩
    · exact List.mem_append_left _ (mem_variableNames.mpr left)
    · intro alternative own' symbol occurs
      rw [own] at own'
      refine ⟨hg.legal_symbol own' occurs, free _ ?_⟩
      rcases symbol with name | name
      · exact List.mem_append_right _ (mem_terminalNames.mpr ⟨_, alternative, own', occurs⟩)
      · exact List.mem_append_left _ (mem_variableNames.mpr (hg.variable_mem own' occurs))

/-- A grammar is read back from its print exactly where its first rule is that of the
start symbol and none of its names holds the arrow of one character. -/
theorem read_back_iff (built : g.Built) :
    (∃ h, ofText g.text = .ok h ∧ (h == g) = true ∧ h.order = g.order) ↔
      g.order.head? = some g.start ∧
        ∀ name ∈ g.variableNames ++ g.terminalNames, '→' ∉ name.toList := by
  rw [← built.wellFormed.readable_iff]
  constructor
  · rintro ⟨h, read, same, order⟩
    obtain ⟨start, table⟩ := beq_iff.mp same
    have eq : h = g := by
      rw [mk.injEq]
      exact ⟨start, order, table⟩
    exact eq ▸ .of_numberedLines read
  · intro readable
    exact ⟨g, readable.ofText_text, beq_iff.mpr ⟨rfl, rfl⟩, rfl⟩

/-- Names made of halves of arrows survive, an arrow in a name does not, and neither
does a start symbol whose rule comes second. -/
theorem read_back_iff_of_declared :
    (∃ g, ofDeclarations [.production "S-" [">", "<-", "-"], .production "S-" []] = .ok g ∧
      ∃ h, ofText g.text = .ok h ∧ (h == g) = true ∧ h.order = g.order) ∧
    (∃ g, ofDeclarations [.production "S" ["a", "-→"]] = .ok g ∧
      ¬ ∃ h, ofText g.text = .ok h ∧ (h == g) = true ∧ h.order = g.order) ∧
    ∃ g, ofDeclarations [.production "A" ["a"], .production "S" ["A"], .start "S"] = .ok g ∧
      ¬ ∃ h, ofText g.text = .ok h ∧ (h == g) = true ∧ h.order = g.order := by
  refine ⟨?_, ?_, ?_⟩
  · have shown : (ofDeclarations [.production "S-" [">", "<-", "-"],
        .production "S-" []]).toOption.map (fun g => decide (g.order.head? = some g.start ∧
          ∀ name ∈ g.variableNames ++ g.terminalNames, '→' ∉ name.toList)) = some true := by decide
    obtain ⟨g, declared, shown⟩ := exists_ok_of_shown shown
    exact ⟨g, declared, (read_back_iff (.declarations declared)).mpr (of_decide_eq_true shown)⟩
  · have shown : (ofDeclarations [.production "S" ["a", "-→"]]).toOption.map (fun g =>
        g.terminalNames) = some ["-→", "a"] := by decide
    obtain ⟨g, declared, shown⟩ := exists_ok_of_shown shown
    refine ⟨g, declared, fun read => ?_⟩
    have free := ((read_back_iff (.declarations declared)).mp read).2
    exact free "-→" (List.mem_append_right _ (by simp [shown])) (by decide)
  · have shown : (ofDeclarations [.production "A" ["a"], .production "S" ["A"],
        .start "S"]).toOption.map (fun g => (g.order, g.start)) = some (["A", "S"], "S") := by decide
    obtain ⟨g, declared, shown⟩ := exists_ok_of_shown shown
    simp only [Prod.mk.injEq] at shown
    refine ⟨g, declared, fun read => ?_⟩
    have first := ((read_back_iff (.declarations declared)).mp read).1
    simp [shown] at first

end GrammarFixpoint.Grammar
