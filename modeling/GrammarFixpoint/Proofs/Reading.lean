import GrammarFixpoint.Proofs.Printing

/-! What was read can be printed. A name that stands in a text is a word of one side
of its rule, and no side holds an arrow; a text asks for no start symbol, so its
first rule gives one. Grammars that are read are therefore readable again. -/

namespace GrammarFixpoint

open Text

namespace Grammar

/-- The start symbol of a definition that asks for none heads the order. -/
theorem head?_order_of_build {productions : List Production} {g : Grammar}
    (h : build none productions = .ok g) : g.order.head? = some g.start := by
  obtain ⟨start, first, rfl, -⟩ := build_eq_ok_iff.mp h
  cases productions with
  | nil => cases first
  | cons p productions =>
    cases first
    rw [order_ofProductions, List.map_cons, List.eraseDups_cons]
    rfl

/-- The rules of a definition have the names of its productions. -/
theorem readable_rules_of_build {start? : Option String} {productions : List Production}
    {g : Grammar} (h : build start? productions = .ok g)
    (readable : ∀ p ∈ productions, ∀ name ∈ p.left :: p.right, GrammarFixpoint.Readable name) :
    ∀ rule ∈ g.rules, rule.Readable := by
  have hg : g.WellFormed := .of_build h fun p mem name occurs => (readable p mem name occurs).1
  obtain ⟨start, -, rfl, -⟩ := build_eq_ok_iff.mp h
  intro rule mem
  obtain ⟨known, own⟩ := mem_rules.mp mem
  refine ⟨?_, own ▸ hg.alternatives_ne_nil (hg.mem_order.mp known), ?_⟩
  · obtain ⟨p, mem, same⟩ := List.mem_map.mp
      (mem_table_ofProductions.mp (hg.mem_order.mp known))
    exact same ▸ readable p mem p.left List.mem_cons_self
  · intro alternative alternative_mem symbol occurs
    rw [own] at alternative_mem
    obtain ⟨p, p_mem, -, rfl⟩ := exists_production alternative_mem
    obtain ⟨name, name_mem, rfl⟩ := List.mem_map.mp occurs
    rw [Symbol.name_classify]
    exact readable p p_mem name (List.mem_cons_of_mem _ name_mem)

/-- A definition of such names that asks for no start symbol closes to a readable grammar. -/
theorem Readable.of_build {productions : List Production} {g : Grammar}
    (h : build none productions = .ok g)
    (readable : ∀ p ∈ productions, ∀ name ∈ p.left :: p.right, GrammarFixpoint.Readable name) :
    g.Readable where
  wellFormed := .of_build h fun p mem name occurs => (readable p mem name occurs).1
  start_first := head?_order_of_build h
  rules := readable_rules_of_build h readable

theorem Readable.of_numberedLines {lines : List (List Char × Nat)} {g : Grammar}
    (h : Grammar.ofNumberedLines lines = .ok g) : g.Readable := by
  obtain ⟨read, steps, close⟩ := ofNumberedLines_eq_ok_iff.mp h
  refine .of_build close ?_
  intro p mem
  obtain ⟨own, own_mem, mem⟩ := List.mem_flatten.mp mem
  obtain ⟨⟨line, number⟩, -, step⟩ := exists_of_mem_mapM steps own_mem
  obtain ⟨rule, stands, rfl⟩ := RuleLine.productions_eq_ok_iff.mp step
  exact stands.readable p mem

end Grammar

end GrammarFixpoint
