import GrammarFixpoint.Grammar.Printer
import GrammarFixpoint.Proofs.LineFormat

/-! Printed rules are read back. What is printed is words: the names of symbols and
the spelling of the empty string. A legal name holds no bar, no blank and no arrow of
two characters; only the arrow of one character has to be ruled out by itself. So a
line has one arrow, its bars stand between alternatives, and the blanks and bars
around the names are all that was added. -/

namespace GrammarFixpoint

open Text

/-- What can stand in a rule as one word. -/
structure Printable (word : String) : Prop where
  isWord : IsWord word
  bar : '|' ∉ word.toList
  arrowFree : ArrowFree word.toList

theorem printable_emptyMarker : Printable emptyMarker where
  isWord := by
    have single : emptyMarker.toList = ['λ'] := by decide
    rw [IsWord, single]
    exact ⟨List.cons_ne_nil 'λ' [], List.forall_mem_singleton.mpr (by decide)⟩
  bar := by decide
  arrowFree := ⟨by decide, by decide⟩

theorem Readable.printable {name : String} (h : Readable name) : Printable name := by
  obtain ⟨isWord, bar, arrow, -⟩ := isLegalName_iff.mp h.1
  exact ⟨isWord, bar, h.2, arrow⟩

theorem Readable.not_marker {name : String} (h : Readable name) : isMarker name = false :=
  (isLegalName_iff.mp h.1).2.2.2

/-! Alternatives. -/

namespace Alternative

/-- An alternative as it is printed: its names with spaces between, or `λ` where there are none. -/
def spelled (alternative : Alternative) : String :=
  if alternative = [] then "λ" else " ".intercalate (alternative.map Symbol.name)

theorem text_eq_spelled (alternative : Alternative) : alternative.text = alternative.spelled := by
  cases alternative <;> rfl

/-- The words that an alternative is written with. -/
def words : Alternative → List String
  | [] => [emptyMarker]
  | symbols => symbols.map Symbol.name

/-- Every name of the alternative can be written into a rule. -/
def Legal (alternative : Alternative) : Prop :=
  ∀ symbol ∈ alternative, isLegalName symbol.name = true

def Readable (alternative : Alternative) : Prop :=
  ∀ symbol ∈ alternative, GrammarFixpoint.Readable symbol.name

variable {alternative : Alternative}

theorem words_ne_nil (alternative : Alternative) : alternative.words ≠ [] := by
  cases alternative <;> simp [words]

theorem toList_text (alternative : Alternative) :
    alternative.text.toList = [' '].intercalate (alternative.words.map String.toList) := by
  cases alternative with
  | nil => rfl
  | cons symbol symbols =>
    rw [text, String.toList_intercalate, words]
    · rfl
    · exact List.cons_ne_nil symbol symbols
    · exact List.cons_ne_nil symbol symbols

theorem Readable.printable (h : alternative.Readable) :
    ∀ word ∈ alternative.words, Printable word := by
  cases alternative with
  | nil => simpa [words] using printable_emptyMarker
  | cons symbol symbols =>
    intro word mem
    obtain ⟨symbol, occurs, rfl⟩ := List.mem_map.mp mem
    exact (h symbol occurs).printable

/-- The blanks of the text stand between the words, whatever else the names hold. -/
theorem Legal.words_text (h : alternative.Legal) :
    Text.words alternative.text.toList = alternative.words := by
  have isWord : ∀ word ∈ alternative.words, IsWord word := by
    cases alternative with
    | nil => exact List.forall_mem_singleton.mpr printable_emptyMarker.isWord
    | cons symbol symbols =>
      intro word mem
      obtain ⟨symbol, occurs, rfl⟩ := List.mem_map.mp mem
      exact (isLegalName_iff.mp (h symbol occurs)).1
  rw [toList_text, words_join isWord]

theorem Readable.legal (h : alternative.Readable) : alternative.Legal :=
  fun symbol occurs => (h symbol occurs).1

theorem Readable.words_text (h : alternative.Readable) :
    Text.words alternative.text.toList = alternative.words :=
  h.legal.words_text

theorem Readable.arrowFree (h : alternative.Readable) : ArrowFree alternative.text.toList := by
  rw [toList_text]
  have plain : Plain [' '] := List.forall_mem_singleton.mpr (by decide)
  apply ArrowFree.intercalate (List.cons_ne_nil ' ' []) plain
  intro piece mem
  obtain ⟨word, own, rfl⟩ := List.mem_map.mp mem
  exact (h.printable word own).arrowFree

theorem Readable.bare (h : alternative.Readable) : Bare alternative.text.toList := by
  rw [toList_text]
  apply Bare.intercalate (by simp [words_ne_nil])
  intro piece mem
  obtain ⟨word, own, rfl⟩ := List.mem_map.mp mem
  exact (h.printable word own).isWord.bare

/-- The text of an alternative holds what is blank by itself or stands in a name. -/
theorem mem_text {c : Char} (h : c ∈ alternative.text.toList) :
    c = ' ' ∨ ∃ word ∈ alternative.words, c ∈ word.toList := by
  rw [toList_text] at h
  rcases mem_intercalate h with h | ⟨piece, mem, h⟩
  · exact .inl (List.mem_singleton.mp h)
  · obtain ⟨word, own, rfl⟩ := List.mem_map.mp mem
    exact .inr ⟨word, own, h⟩

theorem Readable.not_mem_text (h : alternative.Readable) {c : Char} (space : c ≠ ' ')
    (parts : isBlank c = true ∨ c = '|') : c ∉ alternative.text.toList := by
  intro mem
  rcases mem_text mem with eq | ⟨word, own, occurs⟩
  · exact space eq
  · have printable := h.printable word own
    rcases parts with blank | rfl
    · rw [printable.isWord.2 c occurs] at blank
      cases blank
    · exact printable.bar occurs

/-- The words of an alternative spell its names. -/
theorem Readable.spells (h : alternative.Readable) :
    Spells alternative.words (alternative.map Symbol.name) := by
  cases alternative with
  | nil => exact .empty (by decide)
  | cons symbol symbols =>
    refine .names (List.cons_ne_nil _ _) ?_
    intro word mem
    obtain ⟨other, occurs, rfl⟩ := List.mem_map.mp mem
    exact (h other occurs).not_marker

end Alternative

/-! Rules. -/

/-- An arrow, and the blanks on the two sides of a bar. -/
structure Spelling where
  arrow : List Char
  before : List Char
  after : List Char
  splitArrow_append : ∀ text, splitArrow (arrow ++ text) = [] :: splitArrow text
  before_blank : ∀ c ∈ before, isBlank c = true
  after_blank : ∀ c ∈ after, isBlank c = true

namespace Spelling

/-- How a grammar is printed. -/
def wide : Spelling where
  arrow := ['-', '>']
  before := [' ']
  after := [' ']
  splitArrow_append := splitArrow_arrow
  before_blank := blank_space
  after_blank := blank_space

/-- How the lines of a snapshot are written. -/
def tight : Spelling where
  arrow := ['→']
  before := []
  after := []
  splitArrow_append := splitArrow_sign
  before_blank := List.forall_mem_nil _
  after_blank := List.forall_mem_nil _

def bar (s : Spelling) : List Char := s.before ++ '|' :: s.after

theorem bar_plain (s : Spelling) : Plain s.bar := by
  have plain {c : Char} (blank : isBlank c = true) : c ≠ '→' ∧ c ≠ '-' ∧ c ≠ '>' := by
    refine ⟨?_, ?_, ?_⟩ <;> rintro rfl <;> exact absurd blank (by decide)
  intro c mem
  rcases List.mem_append.mp mem with mem | mem
  · exact plain (s.before_blank c mem)
  rcases List.mem_cons.mp mem with rfl | mem
  · decide
  · exact plain (s.after_blank c mem)

end Spelling

namespace Rule

variable (rule : Rule) (s : Spelling)

/-- The alternatives of the rule as text. -/
def pieces : List (List Char) := rule.alternatives.map fun alternative => alternative.text.toList

def rightSide : List Char := ' ' :: s.bar.intercalate rule.pieces

def line : List Char := rule.left.toList ++ (' ' :: (s.arrow ++ rule.rightSide s))

theorem toList_text : rule.text.toList = rule.line .wide := by
  simp [text, line, rightSide, pieces, Spelling.wide, Spelling.bar, String.toList_intercalate,
    Function.comp_def]

/-- The rule is read back from its line. -/
structure Readable (rule : Rule) : Prop where
  left : GrammarFixpoint.Readable rule.left
  alternatives_ne_nil : rule.alternatives ≠ []
  alternatives : ∀ alternative ∈ rule.alternatives, alternative.Readable

variable {rule} {s}

theorem Readable.pieces_ne_nil (h : rule.Readable) : rule.pieces ≠ [] := by
  simp [pieces, h.alternatives_ne_nil]

theorem Readable.arrowFree (h : rule.Readable) : ArrowFree (rule.rightSide s) := by
  have free : ArrowFree (s.bar.intercalate rule.pieces) := by
    apply ArrowFree.intercalate (by simp [Spelling.bar]) s.bar_plain
    intro piece mem
    obtain ⟨alternative, own, rfl⟩ := List.mem_map.mp mem
    exact (h.alternatives alternative own).arrowFree
  exact arrowFree_nil.append_cons free (by decide) (by decide) (by decide)

theorem Readable.splitArrow_line (h : rule.Readable) :
    splitArrow (rule.line s) = [rule.left.toList ++ [' '], rule.rightSide s] := by
  have free : ArrowFree (rule.left.toList ++ [' ']) :=
    h.left.printable.arrowFree.append_cons arrowFree_nil (by decide) (by decide) (by decide)
  rw [line, ← List.singleton_append, ← List.append_assoc]
  apply splitArrow_append free
  rw [s.splitArrow_append, splitArrow_of_free h.arrowFree]

theorem Readable.words_pieces (h : rule.Readable) :
    ((rule.rightSide s).splitOn '|').map words = rule.alternatives.map Alternative.words := by
  have parts : rule.pieces.map words = rule.alternatives.map Alternative.words := by
    rw [pieces, List.map_map]
    apply List.map_congr_left
    intro alternative own
    exact (h.alternatives alternative own).words_text
  rw [← parts]
  apply map_words_splitOn_bar blank_space s.before_blank s.after_blank h.pieces_ne_nil
  intro piece mem
  obtain ⟨alternative, own, rfl⟩ := List.mem_map.mp mem
  exact (h.alternatives alternative own).not_mem_text (by decide) (.inr rfl)

/-- The rule stands in the line that is printed for it. -/
theorem Readable.standsIn (h : rule.Readable) : rule.written.StandsIn (rule.line s) := by
  obtain ⟨single, separator, mem, eq⟩ := splitArrow_eq_pair_iff.mp h.splitArrow_line
  have printable := h.left.printable
  refine ⟨single, ⟨_, separator, _, mem, eq, ?_, ?_⟩, h.left.not_marker, printable.bar⟩
  · rw [words_of_append_blank blank_space, words_toList printable.isWord]
    rfl
  · rw [h.words_pieces, Rule.written, List.forall₂_map_left_iff, List.forall₂_map_right_iff,
      List.forall₂_same]
    exact fun alternative own => (h.alternatives alternative own).spells

/-- The line of a rule begins with a name and ends with a word. -/
theorem Readable.bare_line (h : rule.Readable) : Bare (rule.line s) := by
  have last : Bare (s.bar.intercalate rule.pieces) := by
    apply Bare.intercalate h.pieces_ne_nil
    intro piece mem
    obtain ⟨alternative, own, rfl⟩ := List.mem_map.mp mem
    exact (h.alternatives alternative own).bare
  simpa [line, rightSide] using
    h.left.printable.isWord.bare.append (' ' :: (s.arrow ++ [' '])) last

theorem Readable.newline_not_mem (h : rule.Readable) : '\n' ∉ rule.line .wide := by
  have name : '\n' ∉ rule.left.toList := by
    intro mem
    exact absurd (h.left.printable.isWord.2 _ mem) (by decide)
  have right : '\n' ∉ (Spelling.wide.bar).intercalate rule.pieces := by
    intro mem
    rcases mem_intercalate mem with mem | ⟨piece, piece_mem, mem⟩
    · revert mem
      decide
    · obtain ⟨alternative, own, rfl⟩ := List.mem_map.mp piece_mem
      exact (h.alternatives alternative own).not_mem_text (by decide) (.inl (by decide)) mem
  simpa [line, rightSide, Spelling.wide, name] using right

end Rule

namespace Grammar

variable {g : Grammar}

theorem WellFormed.legal (hg : g.WellFormed) {left : String} {alternative : Alternative}
    (own : alternative ∈ g.alternatives left) : alternative.Legal :=
  fun _ occurs => hg.legal_symbol own occurs

/-- The name of a variable ends where the first space of a text stands. -/
theorem WellFormed.space_not_mem (hg : g.WellFormed) {left : String} (known : left ∈ g.table) :
    ' ' ∉ left.toList :=
  (isLegalName_iff.mp (hg.legal_left known)).1.space_not_mem

/-- A grammar that is read back from its rules: they start with the start symbol,
and every one of them is read back. -/
structure Readable (g : Grammar) : Prop where
  wellFormed : g.WellFormed
  start_first : g.order.head? = some g.start
  rules : ∀ rule ∈ g.rules, rule.Readable

theorem Readable.start (h : g.Readable) : GrammarFixpoint.Readable g.start := by
  have known := h.wellFormed.mem_order.mpr h.wellFormed.start_mem
  exact (h.rules ⟨g.start, g.alternatives g.start⟩ (mem_rules.mpr ⟨known, rfl⟩)).left

theorem Readable.build_rules (h : g.Readable) :
    build none (g.rules.flatMap Rule.productions) = .ok g := by
  have first : (g.rules.flatMap Rule.productions).head?.map Production.left = some g.start := by
    have start := h.start_first
    rw [← map_left_rules] at start
    cases rules : g.rules with
    | nil => rw [rules] at start; cases start
    | cons rule others =>
      rw [rules, List.map_cons, List.head?_cons, Option.some.injEq] at start
      have own := h.rules rule (rules ▸ List.mem_cons_self)
      obtain ⟨alternative, alternatives, eq⟩ := List.exists_cons_of_ne_nil own.alternatives_ne_nil
      simp [Rule.productions, eq, start]
  have hg := h.wellFormed
  rw [build_eq_ok_iff]
  refine ⟨g.start, ?_, hg.ofProductions_rules.symm, hg.start_mem, hg.variables_le, hg.terminals_le⟩
  rw [first]
  rfl

/-- Lines of the rules in any spelling and with any numbers are read as the grammar. -/
theorem Readable.ofNumberedLines (h : g.Readable) {s : Spelling} {lines : List (List Char × Nat)}
    (same : lines.map Prod.fst = g.rules.map (Rule.line · s)) :
    ofNumberedLines lines = .ok g := by
  refine ofNumberedLines_eq_ok_iff.mpr ⟨g.rules.map Rule.productions, ?_, ?_⟩
  · refine RuleLine.mapM_productions_eq_ok_iff.mpr ⟨g.rules.map Rule.written, ?_, ?_⟩
    · rw [same, List.forall₂_map_left_iff, List.forall₂_map_right_iff, List.forall₂_same]
      exact fun rule mem => (h.rules rule mem).standsIn
    · simp [Function.comp_def, Rule.productions_written]
  · rw [← List.flatMap_def]
    exact h.build_rules

theorem toList_text (g : Grammar) :
    g.text.toList = (g.rules.map (Rule.line · .wide)).flatMap (· ++ ['\n']) := by
  simp [text, String.toList_join, Rule.toList_text, List.flatMap_map]

theorem toList_ruleLines (g : Grammar) :
    g.snapshot.ruleLines.map String.toList = g.rules.map (Rule.line · .tight) := by
  simp [snapshot, Snapshot.ruleLines, Rule.line, Rule.rightSide, Rule.pieces, Spelling.tight,
    Spelling.bar, String.toList_intercalate, Function.comp_def]

/-- Printing a grammar and reading the text gives the grammar. -/
theorem Readable.ofText_text (h : g.Readable) : ofText g.text = .ok g := by
  have bare : ∀ line ∈ g.rules.map (Rule.line · .wide), Bare line := by
    intro line mem
    obtain ⟨rule, own, rfl⟩ := List.mem_map.mp mem
    exact (h.rules rule own).bare_line
  have whole : ∀ line ∈ g.rules.map (Rule.line · .wide), '\n' ∉ line := by
    intro line mem
    obtain ⟨rule, own, rfl⟩ := List.mem_map.mp mem
    exact (h.rules rule own).newline_not_mem
  have trimmed : (g.rules.map (Rule.line · .wide)).map trim = g.rules.map (Rule.line · .wide) :=
    (List.map_congr_left fun line mem => (bare line mem).trim_eq).trans (List.map_id _)
  apply h.ofNumberedLines (s := .wide)
  rw [toList_text, lines_of_bare bare whole, trimmed, List.filter_eq_self.mpr, List.zipIdx_map_fst]
  intro line mem
  simp [(bare line.1 (List.fst_mem_of_mem_zipIdx mem)).ne_nil]

theorem Readable.ofLines_ruleLines (h : g.Readable) : ofLines g.snapshot.ruleLines = .ok g := by
  have trimmed : g.snapshot.ruleLines.map (fun line => trim line.toList) =
      g.rules.map (Rule.line · .tight) := by
    rw [← toList_ruleLines]
    apply List.map_congr_left
    intro line mem
    apply Bare.trim_eq
    have own : line.toList ∈ g.rules.map (Rule.line · .tight) :=
      toList_ruleLines g ▸ List.mem_map_of_mem mem
    obtain ⟨rule, own, eq⟩ := List.mem_map.mp own
    exact eq ▸ (h.rules rule own).bare_line
  apply h.ofNumberedLines (s := .tight)
  rw [trimmed, List.zipIdx_map_fst]

end Grammar

end GrammarFixpoint
