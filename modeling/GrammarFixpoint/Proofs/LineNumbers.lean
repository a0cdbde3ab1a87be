import GrammarFixpoint.Proofs.LineVerdicts

/-! Texts and lists of lines. A text is read as the list of its lines that are not blank, and
all that is left of the others is that they are counted. So the two readings of a grammar give
the same answer, except that an error about the line in some place of the list is about the line
of the text with the number in that place. -/

namespace GrammarFixpoint

open Text

/-! Lines of a text. -/

namespace Text

/-- The lines of a text: one is ended by a line feed, alone or behind one carriage return, and
the last one may be ended by nothing. -/
inductive FallsInto : List Char → List (List Char) → Prop where
  | nil : FallsInto [] []
  | rest {line : List Char} (ne : line ≠ []) (whole : '\n' ∉ line) : FallsInto line [line]
  | feed {line text : List Char} {lines : List (List Char)} (whole : '\n' ∉ line)
      (bare : line.getLast? ≠ some '\r') (later : FallsInto text lines) :
      FallsInto (line ++ '\n' :: text) (line :: lines)
  | returnFeed {line text : List Char} {lines : List (List Char)} (whole : '\n' ∉ line)
      (later : FallsInto text lines) : FallsInto (line ++ '\r' :: '\n' :: text) (line :: lines)

variable {line text : List Char} {ls : List (List Char)}

theorem lines_of_whole (ne : line ≠ []) (whole : '\n' ∉ line) : lines line = [line] := by
  cases line with
  | nil => exact absurd rfl ne
  | cons c line => simp [lines, List.splitOn_eq_singleton whole]

theorem lines_append_cons (whole : '\n' ∉ line) (text : List Char) :
    lines (line ++ '\n' :: text) = dropReturn line :: lines text := by
  obtain ⟨piece, pieces, split⟩ := List.exists_cons_of_ne_nil (List.splitOn_ne_nil '\n' text)
  simp only [lines, List.splitOn_append_cons_self_of_not_mem whole, split, List.dropLast_cons_cons,
    List.map_cons, List.getLast?_cons_cons]
  split <;> rfl

theorem dropReturn_append (line : List Char) : dropReturn (line ++ ['\r']) = line := by
  simp [dropReturn]

theorem fallsInto_lines (text : List Char) : FallsInto text (lines text) := by
  by_cases feed : '\n' ∈ text
  · obtain ⟨line, rest, rfl, whole⟩ := List.eq_append_cons_of_mem feed
    rw [lines_append_cons whole]
    have later := fallsInto_lines rest
    by_cases bare : line.getLast? = some '\r'
    · obtain ⟨line, rfl⟩ : ∃ front, line = front ++ ['\r'] := List.getLast?_eq_some_iff.mp bare
      rw [dropReturn_append, List.append_assoc]
      exact .returnFeed (fun mem => whole (List.mem_append_left _ mem)) later
    · rw [dropReturn, if_neg bare]
      exact .feed whole bare later
  · cases text with
    | nil => exact .nil
    | cons c text =>
      rw [lines_of_whole (List.cons_ne_nil c text) feed]
      exact .rest (List.cons_ne_nil c text) feed
termination_by text.length

/-- A text has one list of lines, which is the one that is read. -/
theorem fallsInto_iff : FallsInto text ls ↔ ls = lines text := by
  constructor
  · intro h
    induction h with
    | nil => rfl
    | rest ne whole => exact (lines_of_whole ne whole).symm
    | feed whole bare _ ih => rw [lines_append_cons whole, dropReturn, if_neg bare, ih]
    | @returnFeed line text ls whole _ ih =>
      have whole' : '\n' ∉ line ++ ['\r'] := by simp [whole]
      have shape : line ++ '\r' :: '\n' :: text = (line ++ ['\r']) ++ '\n' :: text := by simp
      rw [shape, lines_append_cons whole', dropReturn_append, ih]
  · rintro rfl
    exact fallsInto_lines text

-- One carriage return belongs to a line end, others to the line.
example : lines "a\r\r\n\r\nb\rc\r".toList = ["a\r".toList, [], "b\rc\r".toList] := by decide

end Text

/-- The lines of a text that are not blank, with their numbers. -/
def numberedRows (text : String) : List (List Char × Nat) :=
  ((lines text.toList).zipIdx 1).filter fun (line, _) => !line.all isBlank

/-- The rows are the lines that are not blank, in order, each with its number among all lines,
which counts from one. -/
structure Counted (lines : List (List Char)) (rows : List (List Char × Nat)) : Prop where
  ascending : (rows.map Prod.snd).Pairwise (· < ·)
  mem_iff : ∀ line number, (line, number) ∈ rows ↔
    ∃ index, number = index + 1 ∧ lines[index]? = some line ∧ ∃ c ∈ line, isBlank c = false

/-- The first answer is the second, except that what the second says about a line in a list is
said about the line with the number in the same place. -/
inductive AgreesButNumbers (numbers : List Nat) :
    Except GrammarError Grammar → Except GrammarError Grammar → Prop where
  | read (g : Grammar) : AgreesButNumbers numbers (.ok g) (.ok g)
  | line {index number : Nat} {fault : LineFault} (place : numbers[index]? = some number) :
      AgreesButNumbers numbers (.error (.line number fault)) (.error (.line (index + 1) fault))
  | other {e : GrammarError} (numberless : e.line? = none) :
      AgreesButNumbers numbers (.error e) (.error e)

theorem counted_numberedRows (text : String) : Counted (lines text.toList) (numberedRows text) where
  ascending := by
    have all : (((lines text.toList).zipIdx 1).map Prod.snd).Pairwise (· < ·) := by
      rw [List.zipIdx_map_snd]
      exact List.pairwise_lt_range'
    exact all.sublist (List.filter_sublist.map Prod.snd)
  mem_iff := by
    intro line number
    rw [numberedRows, List.mem_filter, List.mem_zipIdx_iff_le_and_getElem?_sub]
    constructor
    · rintro ⟨⟨le, place⟩, own⟩
      exact ⟨number - 1, by omega, place, by simpa using own⟩
    · rintro ⟨index, rfl, place, own⟩
      exact ⟨⟨by omega, place⟩, by simpa using own⟩

namespace Grammar

/-- Lines that are read are closed to the same grammar whatever their numbers. -/
theorem ofNumberedLines_eq_build {items : List (List Char × Nat)} {rules : List WrittenRule}
    (stand : List.Forall₂ (fun line rule => rule.StandsIn line) (items.map Prod.fst) rules) :
    ofNumberedLines items = build none (rules.map WrittenRule.productions).flatten := by
  rw [ofNumberedLines, RuleLine.mapM_productions_eq_ok_iff.mpr ⟨rules, stand, rfl⟩]
  rfl

/-- Numbers of lines are for errors only, and an error carries the number that its line has. -/
theorem ofNumberedLines_agrees (items : List (List Char × Nat)) :
    AgreesButNumbers (items.map Prod.snd) (ofNumberedLines items)
      (ofNumberedLines ((items.map Prod.fst).zipIdx 1)) := by
  cases run : items.mapM fun (line, number) => RuleLine.productions number line with
  | ok read =>
    obtain ⟨rules, stand, -⟩ := RuleLine.mapM_productions_eq_ok_iff.mp run
    have stand' := stand
    rw [← List.zipIdx_map_fst 1 (items.map Prod.fst)] at stand'
    rw [ofNumberedLines_eq_build stand, ofNumberedLines_eq_build stand']
    cases close : build none (rules.map WrittenRule.productions).flatten with
    | ok g => exact .read g
    | error e =>
      refine .other ?_
      rcases error_of_build close with rfl | rfl <;> rfl
  | error e =>
    have rejected : ofNumberedLines items = .error e := bind_eq_error_iff.mpr (.inl run)
    obtain ⟨front, line, number, back, rfl, rules, refused⟩ :=
      RuleLine.mapM_productions_eq_error_iff.mp run
    have again : ofNumberedLines ((front.map Prod.fst ++ line :: back.map Prod.fst).zipIdx 1) =
        .error (e.atLine (front.length + 1)) := by
      refine ofNumberedLines_of_refused (List.forall_mem_map.mpr rules) ?_ _
      rw [List.length_map]
      exact refused.atLine _
    rw [rejected, List.map_append, List.map_append, List.map_cons, List.map_cons, again]
    cases e with
    | line named fault =>
      obtain rfl : named = number := by simpa [GrammarError.line?] using refused.line?_eq
      exact .line (by simp)
    | _ => exact .other rfl

/-- Reading a text looks at its rows without the blanks around them. -/
theorem ofText_eq (text : String) :
    ofText text = ofNumberedLines ((numberedRows text).map (Prod.map trim id)) := by
  have same (row : List Char × Nat) : (!(Prod.map trim id row).1.isEmpty) = !row.1.all isBlank := by
    rw [Prod.map_fst, isEmpty_trim]
  rw [ofText, List.zipIdx_map, List.filter_map]
  simp only [Function.comp_def, same]
  rfl

theorem ofLines_rows (rows : List (List Char × Nat)) :
    ofLines (rows.map fun row => String.ofList row.1) =
      ofNumberedLines (((rows.map (Prod.map trim id)).map Prod.fst).zipIdx 1) := by
  simp [ofLines, Function.comp_def]

/-- A text is read as the list of its lines that are not blank, and is rejected like it but for
the numbers of lines, which are those of the text. -/
theorem ofText_agrees_ofLines (text : String) :
    (∀ ls, FallsInto text.toList ls ↔ ls = lines text.toList) ∧
      Counted (lines text.toList) (numberedRows text) ∧
      AgreesButNumbers ((numberedRows text).map Prod.snd) (ofText text)
        (ofLines ((numberedRows text).map fun row => String.ofList row.1)) ∧
      (numberedRows text = [] → ofText text = .error .noRules ∧ ofLines [] = .error .noRules) := by
  refine ⟨fun _ => fallsInto_iff, counted_numberedRows text, ?_, ?_⟩
  · have agrees := ofNumberedLines_agrees ((numberedRows text).map (Prod.map trim id))
    rw [ofText_eq, ofLines_rows]
    rwa [List.map_map] at agrees
  · intro blank
    rw [ofText_eq, blank]
    exact ⟨rfl, rfl⟩

/-- The second line of the list is the fourth of the text. A text of blank lines has no rules. -/
theorem ofText_agrees_ofLines_of_blank_lines :
    ofLines ["S -> a", "A ->\r"] = .error (.line 2 (.emptyAlternative 1)) ∧
      ofText "\r\nS -> a\r\n \u3000\nA ->\r" = .error (.line 4 (.emptyAlternative 1)) ∧
      numberedRows " \r\n\r" = [] ∧ ofText " \r\n\r" = .error .noRules := by
  have rejected : ofLines ["S -> a", "A ->\r"] = .error (.line 2 (.emptyAlternative 1)) := by rfl
  have rows : numberedRows "\r\nS -> a\r\n \u3000\nA ->\r" =
      [("S -> a".toList, 2), ("A ->\r".toList, 4)] := by decide
  have blank : numberedRows " \r\n\r" = [] := by decide
  obtain ⟨-, -, agrees, -⟩ := ofText_agrees_ofLines "\r\nS -> a\r\n \u3000\nA ->\r"
  obtain ⟨-, -, -, of_blank⟩ := ofText_agrees_ofLines " \r\n\r"
  refine ⟨rejected, ?_, blank, (of_blank blank).1⟩
  rw [rows] at agrees
  have shifted : AgreesButNumbers [2, 4] (ofText "\r\nS -> a\r\n \u3000\nA ->\r")
      (.error (.line 2 (.emptyAlternative 1))) := rejected ▸ agrees
  generalize ofText "\r\nS -> a\r\n \u3000\nA ->\r" = answer at shifted ⊢
  cases shifted with
  | line place =>
    cases place
    rfl
  | other numberless => cases numberless

end Grammar

end GrammarFixpoint
