import GrammarFixpoint.Proofs.LineVerdicts

/-! Which line a rejected text is blamed on. Lines are read in order and each says by itself
whether it is a rule, so the error of a text is that of its first line that is none, and
what has been read before or would be read behind has no part in it. Nearly all of these
errors carry the number of the line. The one that does not comes from a bar in the name
before the separator: no separator of words takes notice of it there, and it is only found
where the first production of the line is checked like one that was declared. -/

namespace GrammarFixpoint

open Text

/-- The one name before the separator holds a bar, and the first alternative behind it has no
fault of its own. -/
structure Barred (left : String) (line : List Char) : Prop where
  single : separatorCount line = 1
  sides : ∃ before separator after piece pieces names, separator ∈ separators ∧
    line = before ++ (separator ++ after) ∧ words before = [left] ∧
      after.splitOn '|' = piece :: pieces ∧ Spells (words piece) names
  not_marker : isMarker left = false
  bar : '|' ∈ left.toList

/-- Of the lines that count, this one is the first that is no rule. Its number counts from
one, and all lines before it are counted. -/
structure FirstFault (counts : List Char → Bool) (lines : List (List Char)) (number : Nat)
    (line : List Char) : Prop where
  place : ∃ before after, lines = before ++ line :: after ∧ number = before.length + 1 ∧
    ∀ earlier ∈ before, counts earlier = true → IsRule earlier
  counts : counts line = true
  not_rule : ¬ IsRule line

/-- Where the items carry their places and only some are looked at, it is still known at which
place the run fails, and that it passes all that are looked at before. -/
theorem exists_first_of_numbered {α β ε : Type} {f : α × Nat → Except ε β} {kept : α → Bool}
    {xs : List α} {n : Nat} {e : ε}
    (h : ((xs.zipIdx n).filter fun (x, _) => kept x).mapM f = .error e) :
    ∃ before x after, xs = before ++ x :: after ∧ kept x = true ∧
      f (x, before.length + n) = .error e ∧
        ∀ y ∈ before, kept y = true → ∃ number z, f (y, number) = .ok z := by
  obtain ⟨earlier, ⟨x, number⟩, later, eq, good, bad⟩ := mapM_eq_error_iff.mp h
  obtain ⟨ahead, rest, whole, rfl, same⟩ := List.filter_eq_append_iff.mp eq
  obtain ⟨skipped, behind, rfl, dropped, own, -⟩ := List.filter_eq_cons_iff.mp same
  rw [← List.append_assoc] at whole
  obtain ⟨before, rest, rfl, numbered, same⟩ := List.zipIdx_eq_append_iff.mp whole
  obtain ⟨_, after, rfl, place, -⟩ := List.zipIdx_eq_cons_iff.mp same.symm
  cases place
  refine ⟨before, x, after, rfl, own, Nat.add_comm n _ ▸ bad, ?_⟩
  intro y mem looked
  obtain ⟨⟨_, number⟩, place, rfl⟩ := List.mem_map.mp ((List.zipIdx_map_fst n before).symm ▸ mem)
  rcases List.mem_append.mp (numbered ▸ place) with front | passed
  · exact ⟨number, good _ (List.mem_filter.mpr ⟨front, looked⟩)⟩
  · exact absurd looked (dropped _ passed)

namespace RuleLine

variable {e : GrammarError}

/-- The run over the numbered lines that count fails at the first that is no rule. -/
theorem exists_firstFault {lines : List (List Char)} {kept : List Char → Bool}
    (h : (((lines.map trim).zipIdx 1).filter fun (line, _) => kept line).mapM
      (fun (line, number) => productions number line) = .error e) :
    ∃ number line, FirstFault (fun line => kept (trim line)) lines number line ∧
      productions number (trim line) = .error e := by
  obtain ⟨before, text, after, eq, counts, bad, good⟩ := exists_first_of_numbered h
  obtain ⟨front, rest, rfl, rfl, same⟩ := List.map_eq_append_iff.mp eq
  obtain ⟨line, back, rfl, rfl, rfl⟩ := List.map_eq_cons_iff.mp same
  rw [List.length_map] at bad
  refine ⟨front.length + 1, line, ⟨⟨front, back, rfl, rfl, ?_⟩, counts, ?_⟩, bad⟩
  · intro earlier mem counted
    obtain ⟨number, ps, read⟩ := good (trim earlier) (List.mem_map_of_mem mem) counted
    exact isRule_trim_iff.mp ((isRule_iff number).mpr ⟨ps, read⟩)
  · intro rule
    obtain ⟨ps, read⟩ := (isRule_iff (front.length + 1)).mp (isRule_trim_iff.mpr rule)
    cases read.symm.trans bad

end RuleLine

/-- The error names the line by its number, unless a bar in the name before the separator is
the first thing that is wrong there. Then it names the name. -/
structure GrammarError.Blames (e : GrammarError) (number : Nat) (line : List Char) : Prop where
  numbered : e.line? = some number ↔ ∀ left, ¬ Barred left line
  barred : ∀ left, Barred left line → e = .invalidSymbol left

section Bars

variable {number index : Nat} {left : String} {line : List Char} {e : GrammarError}

/-- The bar is what such a line is refused for. -/
theorem Barred.refused (h : Barred left line) (number : Nat) :
    RefusedFor number line (.invalidSymbol left) := by
  obtain ⟨before, separator, after, piece, pieces, names, mem, eq, word, split, spells⟩ := h.sides
  have alternatives : (after.splitOn '|').map words = [] ++ words piece :: pieces.map words := by
    rw [split]
    rfl
  exact .alternative ⟨h.single, separator, mem, eq⟩ word h.not_marker alternatives (by simp)
    (.barred spells h.bar)

/-- Behind a name with a bar no alternative is accepted. -/
theorem Spoils.of_bar (bar : '|' ∈ left.toList) (parts : List String) :
    ∃ e, Spoils number left index parts e := by
  cases parts with
  | nil => exact ⟨_, .empty⟩
  | cons first rest =>
    by_cases marker : ∃ word ∈ first :: rest, isMarker word = true
    · cases rest with
      | nil => exact ⟨_, .barred (.empty (by simpa using marker)) bar⟩
      | cons second rest => exact ⟨_, .mixed (by simp) marker⟩
    · have plain : ∀ word ∈ first :: rest, isMarker word = false := by simpa using marker
      exact ⟨_, .barred (.names (List.cons_ne_nil first rest) plain) bar⟩

/-- Only a bar in the name before the separator leaves a line without its number. -/
theorem RefusedFor.exists_barred (h : RefusedFor number line e) (numberless : e.line? = none) :
    ∃ left, Barred left line := by
  cases h with
  | @alternative before after left earlier later parts e parted word plain split passed spoils =>
    cases spoils with
    | barred spells bar =>
      cases earlier with
      | nil =>
        obtain ⟨piece, pieces, eq, rfl, -⟩ := List.map_eq_cons_iff.mp split
        obtain ⟨separator, mem, same⟩ := parted.sides
        exact ⟨left, parted.single, ⟨before, separator, after, piece, pieces, _, mem, same, word, eq,
          spells⟩, plain, bar⟩
      | cons first earlier =>
        obtain ⟨e, spoils⟩ := Spoils.of_bar bar first
        exact absurd spoils (passed first List.mem_cons_self 1 e)
    | _ => cases numberless
  | _ => cases numberless

theorem RefusedFor.blames (h : RefusedFor number line e) : e.Blames number line where
  numbered := by
    constructor
    · intro named left barred
      rw [h.unique (barred.refused number)] at named
      cases named
    · intro free
      rcases h.line?_eq with numberless | named
      · obtain ⟨left, barred⟩ := h.exists_barred numberless
        exact absurd barred (free left)
      · exact named
  barred := fun _ barred => h.unique (barred.refused number)

end Bars

theorem GrammarError.Blames.ne_unknownStart {e : GrammarError} {number : Nat} {line : List Char}
    (h : e.Blames number line) (name : String) : e ≠ .unknownStart name := by
  rintro rfl
  have barred : ¬ ∀ left, ¬ Barred left line := mt h.numbered.mpr (by simp [GrammarError.line?])
  obtain ⟨left, barred⟩ := not_forall_not.mp barred
  cases h.barred left barred

namespace Grammar

variable {e : GrammarError}

/-- Numbered lines are rejected for what stands in them or for what they add up to. -/
theorem exists_blamed {lines : List (List Char)} (kept : List Char → Bool)
    (h : ofNumberedLines (((lines.map trim).zipIdx 1).filter fun (line, _) => kept line) = .error e)
    (content : e ≠ .noRules ∧ e ≠ .tooManySymbols) :
    ∃ number line, FirstFault (fun line => kept (trim line)) lines number line ∧
      e.Blames number (trim line) := by
  rcases bind_eq_error_iff.mp h with bad | ⟨read, -, unclosed⟩
  · obtain ⟨number, line, first, refused⟩ := RuleLine.exists_firstFault bad
    exact ⟨number, line, first, (RuleLine.productions_eq_error_iff.mp refused).blames⟩
  · exact absurd (error_of_build unclosed) (not_or.mpr content)

/-- A text or a list of lines that is rejected for its content is rejected for its first line
that is no rule, and the error carries the number of that line, with one exception. -/
theorem rejection_blames_first_fault (e : GrammarError)
    (content : e ≠ .noRules ∧ e ≠ .tooManySymbols) :
    (∀ text, ofText text = .error e → (∀ name, e ≠ .unknownStart name) ∧
      ∃ number line, FirstFault (fun line => !line.all isBlank) (lines text.toList) number line ∧
        e.Blames number (trim line)) ∧
    ∀ given, ofLines given = .error e → (∀ name, e ≠ .unknownStart name) ∧
      ∃ number line, FirstFault (fun _ => true) (given.map String.toList) number line ∧
        e.Blames number (trim line) := by
  constructor
  · intro text rejected
    obtain ⟨number, line, first, blames⟩ := exists_blamed (!·.isEmpty) rejected content
    simp only [isEmpty_trim] at first
    exact ⟨blames.ne_unknownStart, number, line, first, blames⟩
  · intro given rejected
    have all : ofNumberedLines
        ((((given.map String.toList).map trim).zipIdx 1).filter fun _ => true) = .error e := by
      rw [List.filter_true, List.map_map]
      exact rejected
    obtain ⟨number, line, first, blames⟩ := exists_blamed (fun _ => true) all content
    exact ⟨blames.ne_unknownStart, number, line, first, blames⟩

/-- Blank lines are counted, and what is wrong behind the first fault is not seen. -/
theorem rejection_blames_first_fault_of_blank_lines :
    ofText "\nS -> a\n\nA ->\nB|C -> b" = .error (.line 4 (.emptyAlternative 1)) ∧
      ∃ line, FirstFault (fun line => !line.all isBlank)
        (lines "\nS -> a\n\nA ->\nB|C -> b".toList) 4 line ∧
          ∀ left, ¬ Barred left (trim line) := by
  have rejected : ofText "\nS -> a\n\nA ->\nB|C -> b" = .error (.line 4 (.emptyAlternative 1)) := by
    rfl
  obtain ⟨texts, -⟩ := rejection_blames_first_fault (.line 4 (.emptyAlternative 1)) (by simp)
  obtain ⟨-, number, line, first, blames⟩ := texts _ rejected
  have free (left : String) : ¬ Barred left (trim line) := by
    intro barred
    cases blames.barred left barred
  obtain rfl : 4 = number := Option.some.inj (blames.numbered.mpr free)
  exact ⟨rejected, line, first, free⟩

/-- A bar in the name before the separator is reported without the line it stands in. -/
theorem not_every_rejection_numbered :
    ¬ ∀ (text : String) (e : GrammarError), ofText text = .error e →
      e ≠ .noRules ∧ e ≠ .tooManySymbols → ∃ number, e.line? = some number := by
  intro numbered
  obtain ⟨number, eq⟩ := numbered "S|T -> a" (.invalidSymbol "S|T") (by rfl) (by simp)
  cases eq

end Grammar

end GrammarFixpoint
