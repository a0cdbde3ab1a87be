import GrammarFixpoint.Proofs.CommandLine
import GrammarFixpoint.Proofs.Idempotence
import GrammarFixpoint.Proofs.RoundTrip

/-! What is printed is itself a source. Behind its heading a block with rules holds these
rules as a grammar prints them, and they end where a row has no arrow. Copied from the report
into a new source they are read as the grammar that was reported, and since a second removal
of useless variables takes nothing away, reporting on that source shows them once more. -/

namespace GrammarFixpoint.CommandLine

/-- The rules of a block: what stands behind its heading, up to a row without an arrow. -/
def ruleRows (block : List String) : List String :=
  block.tail.takeWhile fun row => Text.hasArrow row.toList

/-- The rules of the block at a position, as the text of a new source. -/
def ruleText (printed : String) (position : Nat) : String :=
  String.join ((ruleRows ((blocks printed)[position]?.getD [])).map line)

/-- What is printed shows the grammar in the block at a position: its text, from which it
is read back. -/
structure Shows (printed : String) (position : Nat) (heading : String) (g : Grammar) : Prop where
  heading : (blocks printed)[position]?.bind List.head? = some heading
  ruleText_eq : ruleText printed position = g.text
  read_back : Grammar.ofText (ruleText printed position) = .ok g

/-- A run of the program that reads the source and reports on it in the text format. -/
structure TextRun (source : String) where
  arguments : List String
  surroundings : Surroundings
  invocation : Invocation
  command : Command.ofArguments? arguments = some (.analyse invocation)
  format : invocation.format = .text
  read : surroundings.read invocation.source = .ok source

namespace TextRun

variable {source : String}

def listed (r : TextRun source) : List Algorithm := r.invocation.requested

def printed (r : TextRun source) : String := (run r.arguments r.surroundings).stdout

end TextRun

/-- Every source can be run on: from standard input, with the analyses left open. -/
def TextRun.standard (source : String) : TextRun source where
  arguments := ["-"]
  surroundings := { files := [], standardInput := source.toUTF8 }
  invocation := ⟨[], .text, true, .standardInput⟩
  command := by decide
  format := rfl
  read := by
    have decoded : String.fromUTF8? source.toUTF8 = some source := dif_pos source.isValidUTF8
    rw [Surroundings.read, decode, decoded]

/-! ## Reports -/

variable {g : Grammar}

namespace TextRun

variable {source : String}

/-- One block for the grammar, and one for each analysis listed. -/
theorem blocks_printed (r : TextRun source) (read : Grammar.ofText source = .ok g) :
    blocks r.printed = grammarRows g.snapshot ::
      r.listed.map fun algorithm =>
        answerRows r.invocation.showSteps algorithm (respond g algorithm) := by
  have reported : run r.arguments r.surroundings = TextReport.report r.invocation source := by
    simp only [run, r.command, Invocation.report, r.read, r.format]
  rw [printed, reported, textReport_of_ok read, conclude_stdout]
  exact blocks_reportRows (Grammar.Built.wellFormed (.text read)) _ _

end TextRun

/-! ## Rules -/

theorem hasArrow_ruleRow (entry : String × List String) :
    Text.hasArrow (ruleRow entry).toList = true := by
  have shape : (ruleRow entry).toList = (entry.1.toList ++ [' ']) ++
      '-' :: '>' :: (' ' :: (" | ".intercalate entry.2).toList) := by
    simp [ruleRow]
  rw [shape, Text.hasArrow_append_arrow]

/-- The rules behind a heading are all rows up to one without an arrow. -/
theorem ruleRows_of_rules (heading : String) (g : Grammar) {rest : List String}
    (closed : ∀ row ∈ rest.head?, Text.hasArrow row.toList = false) :
    ruleRows (heading :: (g.snapshot.productions.map ruleRow ++ rest)) = g.rules.map Rule.text := by
  have rules : ∀ row ∈ g.snapshot.productions.map ruleRow, Text.hasArrow row.toList = true :=
    List.forall_mem_map.mpr fun entry _ => hasArrow_ruleRow entry
  have stopped : rest.takeWhile (fun row => Text.hasArrow row.toList) = [] := by
    cases rest with
    | nil => rfl
    | cons row rest => exact List.takeWhile_cons_of_neg (by simp [closed row rfl])
  rw [ruleRows, List.tail_cons, List.takeWhile_append_of_pos rules, stopped, List.append_nil,
    map_ruleRow]

theorem Shows.of_block {printed : String} {position : Nat} {heading : String} {rest : List String}
    (readable : g.Readable)
    (block : (blocks printed)[position]? =
      some (heading :: (g.snapshot.productions.map ruleRow ++ rest)))
    (closed : ∀ row ∈ rest.head?, Text.hasArrow row.toList = false) :
    Shows printed position heading g := by
  have text : ruleText printed position = g.text := by
    rw [ruleText, block, Option.getD_some, ruleRows_of_rules heading g closed, List.map_map]
    rfl
  refine ⟨?_, text, text ▸ readable.ofText_text⟩
  rw [block]
  rfl

namespace TextRun

variable {source : String}

theorem shows_grammar (r : TextRun source) (read : Grammar.ofText source = .ok g) :
    Shows r.printed 0 "## grammar" g := by
  have readable := (Grammar.Stems.text read).readable
  refine .of_block readable (by rw [r.blocks_printed read]; rfl) ?_
  intro row first
  cases first
  have free : Text.ArrowFree ("start:".toList ++ ' ' :: g.start.toList) :=
    Text.ArrowFree.append_cons ⟨by decide, by decide⟩ readable.start.printable.arrowFree
      (by decide) (by decide) (by decide)
  have shape : ("start: " ++ g.snapshot.start).toList =
      "start:".toList ++ ' ' :: g.start.toList := by
    simp [Grammar.snapshot]
  exact shape ▸ free.2

theorem shows_reduced (r : TextRun source) (read : Grammar.ofText source = .ok g)
    {result : Traced Grammar} (reduce : g.eliminateUseless = .ok result) {index : Nat}
    (asked : r.listed[index]? = some .useless) :
    Shows r.printed (index + 1) "## Grammar without useless variables" result.value := by
  have readable := ((Grammar.Stems.text read).readable.step (.reduce reduce))
  have computed : respond g .useless =
      .success ⟨.grammar Algorithm.useless.title result.value.snapshot result.trace⟩ := by
    refine respond_of_ok ?_
    rw [Grammar.outcome, reduce]
    rfl
  have block : (blocks r.printed)[index + 1]? =
      some (answerRows r.invocation.showSteps .useless (respond g .useless)) := by
    rw [r.blocks_printed read, List.getElem?_cons_succ, List.getElem?_map, asked, Option.map_some]
  rw [computed] at block
  refine .of_block readable block ?_
  intro row first
  rw [stepRows] at first
  split at first
  · cases first
    decide
  · cases first

/-- The rules in a report are the text of the grammar and of what a reduction leaves of it,
and a report on the latter shows the same rules again. -/
theorem report_feeds_back (r : TextRun source) (read : Grammar.ofText source = .ok g) :
    (blocks r.printed).length = r.listed.length + 1 ∧
    Shows r.printed 0 "## grammar" g ∧
    ∀ result, g.eliminateUseless = .ok result → ∀ index, r.listed[index]? = some .useless →
      Shows r.printed (index + 1) "## Grammar without useless variables" result.value ∧
      ∀ (again : TextRun (ruleText r.printed (index + 1))) (index' : Nat),
        again.listed[index']? = some .useless →
          Shows again.printed (index' + 1) "## Grammar without useless variables" result.value := by
  refine ⟨by simp [r.blocks_printed read], r.shows_grammar read, ?_⟩
  intro result reduce index asked
  have shown := r.shows_reduced read reduce asked
  refine ⟨shown, ?_⟩
  intro again index' asked'
  have hg : g.WellFormed := Grammar.Built.wellFormed (.text read)
  obtain ⟨result', reduce', same⟩ := Grammar.exists_eliminateUseless_again hg reduce
  exact same ▸ again.shows_reduced shown.read_back reduce' asked'

/-- From standard input, the reduced grammar is printed behind the other four analyses. -/
theorem report_feeds_back_of_cycles :
    ∃ g result, Grammar.ofText Grammar.cycles = .ok g ∧ g.eliminateUseless = .ok result ∧
      ruleText (standard Grammar.cycles).printed 0 = g.text ∧
      ∃ again : TextRun (ruleText (standard Grammar.cycles).printed 5),
        ruleText again.printed 5 = "S -> a S | λ | a S\n" := by
  have text : ((Grammar.ofText Grammar.cycles).toOption.map fun g =>
      g.eliminateUseless.toOption.map fun result => result.value.text) =
      some (some "S -> a S | λ | a S\n") := by decide
  obtain ⟨g, read, text⟩ := exists_ok_of_shown text
  obtain ⟨result, reduce, text⟩ := exists_ok_of_shown text
  obtain ⟨-, shown, feeds⟩ := report_feeds_back (standard Grammar.cycles) read
  obtain ⟨-, feeds⟩ := feeds result reduce 4 rfl
  refine ⟨g, result, read, reduce, shown.ruleText_eq, standard _, ?_⟩
  rw [(feeds (standard _) 4 rfl).ruleText_eq, text]

end TextRun

end GrammarFixpoint.CommandLine
