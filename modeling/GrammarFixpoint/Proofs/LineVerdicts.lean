import GrammarFixpoint.Proofs.TextFormat

/-! What a line is refused for. The causes are looked for in a fixed order: the number of
separators, the name before the one separator, and then the alternatives from left to right,
where each is asked for its own words before the name is looked at again. The relation below
says this about the text of a line alone, and reading fails with an error exactly where the
relation has it.

As a line is judged without a look at any other, the first one that is refused decides about
a list of lines. What the lines before it have defined is not read by any check, and whether
all names can be numbered is only asked once every line has been accepted. -/

namespace GrammarFixpoint

open Text

/-- The line of a text that an error names. -/
def GrammarError.line? : GrammarError → Option Nat
  | .line number _ => some number
  | _ => none

/-- The same error about a line with another number. -/
def GrammarError.atLine (number : Nat) : GrammarError → GrammarError
  | .line _ fault => .line number fault
  | e => e

/-- The line is a rule by itself. -/
def IsRule (line : List Char) : Prop := ∃ rule : WrittenRule, rule.StandsIn line

/-- The line has one separator, with these two sides. -/
structure Parted (line before after : List Char) : Prop where
  single : separatorCount line = 1
  sides : ∃ separator ∈ separators, line = before ++ (separator ++ after)

/-- What is wrong with an alternative, told from its words, the name that it belongs to and its
place, which counts from one. -/
inductive Spoils (number : Nat) (left : String) (index : Nat) :
    List String → GrammarError → Prop where
  | empty : Spoils number left index [] (.line number (.emptyAlternative index))
  | mixed {parts : List String} (several : 2 ≤ parts.length)
      (marker : ∃ word ∈ parts, isMarker word = true) :
      Spoils number left index parts (.line number .misplacedMarker)
  | barred {parts names : List String} (spells : Spells parts names) (bar : '|' ∈ left.toList) :
      Spoils number left index parts (.invalidSymbol left)

/-- Why a line is refused. Of several causes it is the first in this order. -/
inductive RefusedFor (number : Nat) (line : List Char) : GrammarError → Prop where
  | missing (bare : separatorCount line = 0) :
      RefusedFor number line (.line number .missingSeparator)
  | multiple (several : 2 ≤ separatorCount line) :
      RefusedFor number line (.line number .multipleSeparators)
  | leftHand {before after : List Char} (parted : Parted line before after)
      (unfit : ∀ name, words before = [name] → isMarker name = true) :
      RefusedFor number line (.line number (.invalidLeftHand (String.ofList (trim before))))
  | alternative {before after : List Char} {left : String} {earlier later : List (List String)}
      {parts : List String} {e : GrammarError} (parted : Parted line before after)
      (word : words before = [left]) (plain : isMarker left = false)
      (split : (after.splitOn '|').map words = earlier ++ parts :: later)
      (passed : ∀ parts ∈ earlier, ∀ index e, ¬ Spoils number left index parts e)
      (spoils : Spoils number left (earlier.length + 1) parts e) : RefusedFor number line e

/-- What spoils an alternative would spoil it in any line and at any place. -/
theorem Spoils.elsewhere {number index : Nat} {left : String} {parts : List String}
    {e : GrammarError} (h : Spoils number left index parts e) (other place : Nat) :
    ∃ e, Spoils other left place parts e := by
  cases h with
  | empty => exact ⟨_, .empty⟩
  | mixed several marker => exact ⟨_, .mixed several marker⟩
  | barred spells bar => exact ⟨_, .barred spells bar⟩

/-! Separators. -/

/-- Splitting leaves one piece more than there are separators. -/
theorem length_of_splitArrow {text : List Char} {pieces : List (List Char)}
    (split : splitArrow text = pieces) : pieces.length = separatorCount text + 1 := by
  induction pieces generalizing text with
  | nil => exact absurd split (splitArrow_ne_nil text)
  | cons piece pieces ih =>
    have free : separatorCount piece = 0 := by
      rw [separatorCount_eq_zero_iff]
      exact arrowFree_of_mem_splitArrow (split ▸ List.mem_cons_self)
    rcases eq_of_splitArrow_eq_cons split with ⟨rfl, rfl⟩ | ⟨separator, mem, rest, rfl, later⟩
    · rw [free]
      rfl
    · rw [List.length_cons, ih later, separatorCount_sides mem, free]
      omega

theorem parted_iff {line before after : List Char} :
    Parted line before after ↔ splitArrow line = [before, after] := by
  rw [splitArrow_eq_pair_iff]
  exact ⟨fun h => ⟨h.single, h.sides⟩, fun h => ⟨h.1, h.2⟩⟩

/-! Runs that fail. -/

/-- Two steps fail where the first does, or else the second. -/
theorem bind_eq_error_iff {α β ε : Type} {x : Except ε α} {f : α → Except ε β} {e : ε} :
    x >>= f = .error e ↔ x = .error e ∨ ∃ a, x = .ok a ∧ f a = .error e := by
  cases x <;> simp [bind, Except.bind]

theorem mapM_cons_eq_error_iff {α β ε : Type} {f : α → Except ε β} {x : α} {xs : List α} {e : ε} :
    (x :: xs).mapM f = .error e ↔ f x = .error e ∨ (∃ z, f x = .ok z) ∧ xs.mapM f = .error e := by
  rw [List.mapM_cons, bind_eq_error_iff]
  cases f x <;> cases xs.mapM f <;> simp [bind, Except.bind, pure, Except.pure]

/-- A run over a list fails with the error of the first step that does. -/
theorem mapM_eq_error_iff {α β ε : Type} {f : α → Except ε β} {xs : List α} {e : ε} :
    xs.mapM f = .error e ↔
      ∃ before x after, xs = before ++ x :: after ∧ (∀ y ∈ before, ∃ z, f y = .ok z) ∧
        f x = .error e := by
  induction xs with
  | nil => simp [pure, Except.pure]
  | cons x xs ih =>
    rw [mapM_cons_eq_error_iff]
    constructor
    · rintro (bad | ⟨first, rest⟩)
      · exact ⟨[], x, xs, rfl, by simp, bad⟩
      · obtain ⟨before, y, after, rfl, good, bad⟩ := ih.mp rest
        exact ⟨x :: before, y, after, rfl, List.forall_mem_cons.mpr ⟨first, good⟩, bad⟩
    · rintro ⟨before, y, after, eq, good, bad⟩
      rcases List.append_eq_cons_iff.mp eq.symm with ⟨rfl, same⟩ | ⟨earlier, rfl, rfl⟩
      · cases same
        exact .inl bad
      · obtain ⟨first, good⟩ := List.forall_mem_cons.mp good
        exact .inr ⟨first, ih.mpr ⟨earlier, y, after, rfl, good, bad⟩⟩

theorem exists_ok_iff {α ε : Type} {x : Except ε α} : (∃ a, x = .ok a) ↔ ∀ e, x ≠ .error e := by
  cases x <;> simp

/-- A run over numbered items fails with the error of the first that does. -/
theorem mapM_zipIdx_eq_error_iff {α β ε : Type} {f : α × Nat → Except ε β} {xs : List α} {n : Nat}
    {e : ε} :
    (xs.zipIdx n).mapM f = .error e ↔
      ∃ before x after, xs = before ++ x :: after ∧ (∀ p ∈ before.zipIdx n, ∃ y, f p = .ok y) ∧
        f (x, n + before.length) = .error e := by
  rw [mapM_eq_error_iff]
  constructor
  · rintro ⟨earlier, ⟨x, number⟩, later, eq, good, bad⟩
    obtain ⟨before, rest, rfl, rfl, same⟩ := List.zipIdx_eq_append_iff.mp eq
    obtain ⟨_, after, rfl, place, -⟩ := List.zipIdx_eq_cons_iff.mp same.symm
    cases place
    exact ⟨before, x, after, rfl, good, bad⟩
  · rintro ⟨before, x, after, rfl, good, bad⟩
    exact ⟨_, _, _, by rw [List.zipIdx_append, List.zipIdx_cons], good, bad⟩

theorem map_eq_error_iff {α β ε : Type} {f : α → β} {x : Except ε α} {e : ε} :
    x.map f = .error e ↔ x = .error e := by
  cases x <;> simp [Except.map]

theorem mapError_eq_error_iff {α ε ε' : Type} {f : ε → ε'} {x : Except ε α} {e : ε'} :
    x.mapError f = .error e ↔ ∃ cause, x = .error cause ∧ f cause = e := by
  cases x <;> simp

namespace RuleLine

variable {number index : Nat} {line before after : List Char} {left : String} {parts : List String}
  {fault : LineFault} {e : GrammarError}

theorem leftHand_eq_error_iff :
    leftHand before = .error fault ↔ (∀ name, words before = [name] → isMarker name = true) ∧
      fault = .invalidLeftHand (String.ofList (trim before)) := by
  unfold leftHand
  split
  · next name eq =>
    cases marker : isMarker name <;> simp [eq, marker, eq_comm (a := fault)]
  · next several =>
    have unfit : ∀ name, words before = [name] → isMarker name = true :=
      fun name eq => absurd eq (several name)
    rw [Except.error.injEq, eq_comm]
    exact (and_iff_right unfit).symm

theorem sides_eq_error_iff :
    sides line = .error fault ↔
      separatorCount line = 0 ∧ fault = .missingSeparator ∨
      2 ≤ separatorCount line ∧ fault = .multipleSeparators ∨
      ∃ before after, Parted line before after ∧ leftHand before = .error fault := by
  obtain ⟨first, rest, split⟩ := List.exists_cons_of_ne_nil (splitArrow_ne_nil line)
  have count := length_of_splitArrow split
  simp only [parted_iff, sides, split]
  cases rest with
  | nil =>
    have bare : separatorCount line = 0 := by simpa using count.symm
    simp [bare, eq_comm (a := fault)]
  | cons second rest =>
    cases rest with
    | nil =>
      have one : separatorCount line = 1 := by simpa using count.symm
      simp [one, map_eq_error_iff]
    | cons third rest =>
      have several : 2 ≤ separatorCount line := by
        simp only [List.length_cons] at count
        omega
      have ne : separatorCount line ≠ 0 := by omega
      simp [several, ne, eq_comm (a := fault)]

theorem alternative_eq_error_iff :
    alternative index parts = .error fault ↔
      parts = [] ∧ fault = .emptyAlternative index ∨
      2 ≤ parts.length ∧ (∃ word ∈ parts, isMarker word = true) ∧ fault = .misplacedMarker := by
  cases parts with
  | nil => simp [alternative, eq_comm (a := fault)]
  | cons first rest =>
    cases rest with
    | nil => cases marker : isMarker first <;> simp [alternative, marker]
    | cons second rest =>
      have read : alternative index (first :: second :: rest) =
          if (first :: second :: rest).any isMarker then .error .misplacedMarker
          else .ok (first :: second :: rest) := rfl
      rw [read, ← List.any_eq_true]
      cases (first :: second :: rest).any isMarker <;> simp [eq_comm (a := fault)]

/-- A bar in the left-hand side is found before anything else is wrong with the production. -/
theorem checked_of_bar (bar : '|' ∈ left.toList) (names : List String) :
    Production.checked left names = .error (.invalidSymbol left) := by
  have illegal : isLegalName left = false := by
    rw [← Bool.not_eq_true, isLegalName_iff]
    exact fun legal => legal.2.1 bar
  rw [Production.checked, List.find?_cons, illegal]
  rfl

section Alternatives

variable (pair : splitArrow line = [before, after]) (word : words before = [left])
  (plain : isMarker left = false)

include pair word plain

/-- A piece behind the separator is refused for what spoils it. -/
theorem piece_eq_error_iff {text : List Char} (piece : text ∈ after.splitOn '|') :
    (do let names ← (alternative index (words text)).mapError (GrammarError.line number)
        Production.checked left names) = .error e ↔ Spoils number left index (words text) e := by
  rw [bind_eq_error_iff, mapError_eq_error_iff]
  constructor
  · rintro (⟨fault, faulty, rfl⟩ | ⟨names, read, refused⟩)
    · rcases alternative_eq_error_iff.mp faulty with ⟨empty, rfl⟩ | ⟨several, marker, rfl⟩
      · rw [empty]
        exact .empty
      · exact .mixed several marker
    · have spells := alternative_eq_ok_iff.mp (mapError_eq_ok_iff.mp read)
      -- the names of an alternative that is spelled are legal, so it is the one before the separator
      have bar : '|' ∈ left.toList := by
        by_contra free
        have readable := readable_of_splitArrow pair word plain free piece spells
        rw [Production.checked_eq_ok_iff.mpr ⟨rfl, fun name mem => (readable name mem).1⟩] at refused
        cases refused
      rw [checked_of_bar bar] at refused
      cases refused
      exact .barred spells bar
  · intro spoils
    generalize words text = parts at spoils ⊢
    cases spoils with
    | empty => exact .inl ⟨_, alternative_eq_error_iff.mpr (.inl ⟨rfl, rfl⟩), rfl⟩
    | mixed several marker =>
      exact .inl ⟨_, alternative_eq_error_iff.mpr (.inr ⟨several, marker, rfl⟩), rfl⟩
    | barred spells bar =>
      exact .inr ⟨_, mapError_eq_ok_iff.mpr (alternative_eq_ok_iff.mpr spells), checked_of_bar bar _⟩

/-- The alternatives are read from left to right up to the first that is spoiled. -/
theorem pieces_eq_error_iff :
    ((after.splitOn '|').zipIdx.mapM fun (text, index) => do
      let names ← (alternative (index + 1) (words text)).mapError (GrammarError.line number)
      Production.checked left names) = .error e ↔
    ∃ earlier parts later, (after.splitOn '|').map words = earlier ++ parts :: later ∧
      (∀ parts ∈ earlier, ∀ index e, ¬ Spoils number left index parts e) ∧
        Spoils number left (earlier.length + 1) parts e := by
  rw [mapM_zipIdx_eq_error_iff]
  constructor
  · rintro ⟨front, text, back, eq, good, bad⟩
    refine ⟨front.map words, words text, back.map words, by simp [eq], ?_, ?_⟩
    · rw [List.forall_mem_map]
      intro piece mem index e spoils
      obtain ⟨⟨_, place⟩, own, rfl⟩ := List.mem_map.mp ((List.zipIdx_map_fst 0 front).symm ▸ mem)
      obtain ⟨e', spoils⟩ := spoils.elsewhere number (place + 1)
      have bad := (piece_eq_error_iff pair word plain (by simp [eq, mem])).mpr spoils
      exact exists_ok_iff.mp (good _ own) e' bad
    · simpa using (piece_eq_error_iff pair word plain (by simp [eq])).mp bad
  · rintro ⟨earlier, parts, later, eq, passed, spoils⟩
    obtain ⟨front, rest, split, rfl, same⟩ := List.map_eq_append_iff.mp eq
    obtain ⟨text, back, rfl, rfl, rfl⟩ := List.map_eq_cons_iff.mp same
    refine ⟨front, text, back, split, ?_, ?_⟩
    · rintro ⟨piece, place⟩ own
      have mem := List.fst_mem_of_mem_zipIdx own
      refine exists_ok_iff.mpr fun e bad => ?_
      exact passed _ (List.mem_map_of_mem mem) _ e
        ((piece_eq_error_iff pair word plain (by simp [split, mem])).mp bad)
    · exact (piece_eq_error_iff pair word plain (by simp [split])).mpr (by simpa using spoils)

end Alternatives

/-- A line is refused with the first error that there is a cause for. -/
theorem productions_eq_error_iff : productions number line = .error e ↔ RefusedFor number line e := by
  rw [productions, bind_eq_error_iff]
  constructor
  · rintro (unparted | ⟨⟨left, after⟩, read, run⟩)
    · obtain ⟨fault, cause, rfl⟩ := mapError_eq_error_iff.mp unparted
      rcases sides_eq_error_iff.mp cause with
        ⟨bare, rfl⟩ | ⟨several, rfl⟩ | ⟨before, after, parted, refused⟩
      · exact .missing bare
      · exact .multiple several
      · obtain ⟨unfit, rfl⟩ := leftHand_eq_error_iff.mp refused
        exact .leftHand parted unfit
    · obtain ⟨before, pair, word, plain⟩ := sides_eq_ok_iff.mp (mapError_eq_ok_iff.mp read)
      obtain ⟨earlier, parts, later, split, passed, spoils⟩ :=
        (pieces_eq_error_iff pair word plain).mp run
      exact .alternative (parted_iff.mpr pair) word plain split passed spoils
  · intro refused
    cases refused with
    | missing bare =>
      exact .inl (mapError_eq_error_iff.mpr ⟨_, sides_eq_error_iff.mpr (.inl ⟨bare, rfl⟩), rfl⟩)
    | multiple several =>
      exact .inl (mapError_eq_error_iff.mpr
        ⟨_, sides_eq_error_iff.mpr (.inr (.inl ⟨several, rfl⟩)), rfl⟩)
    | leftHand parted unfit =>
      have refused := leftHand_eq_error_iff.mpr ⟨unfit, rfl⟩
      exact .inl (mapError_eq_error_iff.mpr
        ⟨_, sides_eq_error_iff.mpr (.inr (.inr ⟨_, _, parted, refused⟩)), rfl⟩)
    | alternative parted word plain split passed spoils =>
      have pair := parted_iff.mp parted
      have read := sides_eq_ok_iff.mpr ⟨_, pair, word, plain⟩
      exact .inr ⟨_, mapError_eq_ok_iff.mpr read,
        (pieces_eq_error_iff pair word plain).mpr ⟨_, _, _, split, passed, spoils⟩⟩

theorem isRule_trim_iff {line : List Char} : IsRule (trim line) ↔ IsRule line :=
  exists_congr fun _ => WrittenRule.standsIn_trim_iff

/-- A line that is refused is no rule, and one that is read is. -/
theorem isRule_iff (number : Nat) : IsRule line ↔ ∃ ps, productions number line = .ok ps := by
  constructor
  · intro h
    obtain ⟨rule, stands⟩ := h
    exact ⟨_, productions_of_standsIn stands number⟩
  · intro h
    obtain ⟨ps, read⟩ := h
    obtain ⟨rule, stands, -⟩ := exists_standsIn_of_productions read
    exact ⟨rule, stands⟩

/-- Numbered lines are refused for the first that is no rule. -/
theorem mapM_productions_eq_error_iff {lines : List (List Char × Nat)} :
    lines.mapM (fun (line, number) => productions number line) = .error e ↔
      ∃ front line number back, lines = front ++ (line, number) :: back ∧
        (∀ row ∈ front, IsRule row.1) ∧ RefusedFor number line e := by
  rw [mapM_eq_error_iff]
  constructor
  · rintro ⟨front, ⟨line, number⟩, back, eq, good, bad⟩
    exact ⟨front, line, number, back, eq, fun row mem => (isRule_iff row.2).mpr (good row mem),
      productions_eq_error_iff.mp bad⟩
  · rintro ⟨front, line, number, back, eq, rules, refused⟩
    exact ⟨front, (line, number), back, eq, fun row mem => (isRule_iff row.2).mp (rules row mem),
      productions_eq_error_iff.mpr refused⟩

end RuleLine

theorem trim_append_of_blank {front : List Char} (blank : ∀ c ∈ front, isBlank c = true)
    (text : List Char) : trim (front ++ text) = trim text := by
  rw [trim, List.dropWhile_append_of_pos blank, trim]

/-! Other numbers, and blanks around the line. -/

namespace RefusedFor

variable {number : Nat} {line : List Char} {e e' : GrammarError}

/-- Of all causes that a line has, one is the first. -/
theorem unique (h : RefusedFor number line e) (h' : RefusedFor number line e') : e = e' := by
  rw [← RuleLine.productions_eq_error_iff] at h h'
  exact Except.error.inj (h.symm.trans h')

/-- A line is refused for the same cause whatever its number, and only the number can differ in
the error. -/
theorem atLine (h : RefusedFor number line e) (other : Nat) :
    RefusedFor other line (e.atLine other) := by
  cases h with
  | missing bare => exact .missing bare
  | multiple several => exact .multiple several
  | leftHand parted unfit => exact .leftHand parted unfit
  | alternative parted word plain split passed spoils =>
    refine .alternative parted word plain split ?_ ?_
    · intro parts mem index e spoiled
      obtain ⟨e, spoiled⟩ := spoiled.elsewhere number index
      exact passed parts mem index e spoiled
    · cases spoils with
      | empty => exact .empty
      | mixed several marker => exact .mixed several marker
      | barred spells bar => exact .barred spells bar

theorem line?_eq (h : RefusedFor number line e) : e.line? = none ∨ e.line? = some number := by
  cases h with
  | alternative parted word plain split passed spoils =>
    cases spoils with
    | barred => exact .inl rfl
    | _ => exact .inr rfl
  | _ => exact .inr rfl

theorem of_append {front back : List Char} (blank : ∀ c ∈ front, isBlank c = true)
    (blank' : ∀ c ∈ back, isBlank c = true) (h : RefusedFor number line e) :
    RefusedFor number (front ++ (line ++ back)) e := by
  have count : separatorCount (front ++ (line ++ back)) = separatorCount line := by
    rw [separatorCount_append_of_blank blank, separatorCount_of_append_blank blank']
  have wide {before after : List Char} (parted : Parted line before after) :
      Parted (front ++ (line ++ back)) (front ++ before) (after ++ back) := by
    obtain ⟨separator, mem, rfl⟩ := parted.sides
    exact ⟨count.trans parted.single, separator, mem, by simp⟩
  cases h with
  | missing bare => exact .missing (count.trans bare)
  | multiple several => exact .multiple (count ▸ several)
  | @leftHand before after parted unfit =>
    rw [← trim_append_of_blank blank before]
    refine .leftHand (wide parted) ?_
    rwa [words_append_of_blank blank]
  | @alternative before after left earlier later parts e parted word plain split passed spoils =>
    have word' : words (front ++ before) = [left] := by rw [words_append_of_blank blank, word]
    have split' : ((after ++ back).splitOn '|').map words = earlier ++ parts :: later := by
      rw [map_words_splitOn_of_append_blank blank', split]
    exact .alternative (wide parted) word' plain split' passed spoils

/-- Blanks around a line are no cause. -/
theorem of_trim (h : RefusedFor number (trim line) e) : RefusedFor number line e := by
  obtain ⟨front, back, eq, blank, blank'⟩ := exists_eq_append_trim line
  rw [eq]
  exact h.of_append blank blank'

end RefusedFor

/-! Lists of lines. -/

namespace Grammar

variable {line bad : String} {e : GrammarError}

/-- A definition that asks for no start symbol has one, so it lacks rules or has too many names. -/
theorem error_of_build {productions : List Production} (h : build none productions = .error e) :
    e = .noRules ∨ e = .tooManySymbols := by
  unfold build at h
  split at h
  · cases h
    exact .inl rfl
  · next start first =>
    have known : start ∈ (ofProductions start productions).table := by
      obtain ⟨p, head, rfl⟩ := Option.map_eq_some_iff.mp (by simpa using first)
      exact mem_table_ofProductions.mpr (List.mem_map_of_mem (List.mem_of_head? head))
    simp only [known, not_true_eq_false, if_false] at h
    split at h
    · cases h
      exact .inr rfl
    · cases h

/-- The first line that is no rule is the one that its list is refused for. -/
theorem ofNumberedLines_of_refused {front : List (List Char)} {line : List Char}
    (rules : ∀ earlier ∈ front, IsRule earlier) (refused : RefusedFor (front.length + 1) line e)
    (back : List (List Char)) : ofNumberedLines ((front ++ line :: back).zipIdx 1) = .error e := by
  refine bind_eq_error_iff.mpr (.inl (RuleLine.mapM_productions_eq_error_iff.mpr ?_))
  rw [List.zipIdx_append, List.zipIdx_cons, Nat.add_comm 1]
  exact ⟨_, line, _, _, rfl, fun row mem => rules _ (List.fst_mem_of_mem_zipIdx mem), refused⟩

/-- One line is read, and its productions are closed. -/
theorem ofLines_singleton (line : String) :
    ofLines [line] = RuleLine.productions 1 (trim line.toList) >>= build none := by
  simp [ofLines, ofNumberedLines]

/-- A line that makes a grammar by itself is a rule. -/
theorem isRule_of_ofLines {g : Grammar} (accepted : ofLines [line] = .ok g) :
    IsRule line.toList := by
  rw [ofLines_singleton] at accepted
  obtain ⟨ps, read, -⟩ := bind_eq_ok_iff.mp accepted
  exact RuleLine.isRule_trim_iff.mp ((RuleLine.isRule_iff 1).mpr ⟨ps, read⟩)

/-- A definition lacks rules only where nothing is defined. -/
theorem build_eq_noRules_iff {ps : List Production} :
    build none ps = .error .noRules ↔ ps = [] := by
  cases ps with
  | nil => exact iff_of_true rfl rfl
  | cons p ps =>
    have start : (none <|> (p :: ps).head?.map Production.left) = some p.left := rfl
    simp only [build, start, reduceCtorEq, iff_false]
    split
    · simp
    · split <;> simp

/-- A line that makes no grammar by itself, and not for the number of its names, is refused. -/
theorem productions_of_ofLines (refused : ofLines [line] = .error e) (fits : e ≠ .tooManySymbols) :
    RuleLine.productions 1 (trim line.toList) = .error e := by
  rw [ofLines_singleton] at refused
  rcases bind_eq_error_iff.mp refused with unread | ⟨ps, read, unclosed⟩
  · exact unread
  · exfalso
    -- a rule has an alternative, so there is a start symbol
    obtain ⟨rule, stands, rfl⟩ := RuleLine.exists_standsIn_of_productions read
    obtain rfl := (error_of_build unclosed).resolve_right fits
    have undefined := build_eq_noRules_iff.mp unclosed
    exact stands.alternatives_ne_nil (List.map_eq_nil_iff.mp undefined)

/-- Lists of lines are refused for the first line that is no rule by itself, with the error of this
line but for its number, whatever stands before it and behind it. And of what is wrong with the
line the error names what comes first. -/
theorem first_refused_line_decides {pre : List String} (rest : List String)
    (accepted : ∀ line ∈ pre, ∃ g, ofLines [line] = .ok g) (refused : ofLines [bad] = .error e)
    (fits : e ≠ .tooManySymbols) :
    ofLines (pre ++ bad :: rest) = .error (e.atLine (pre.length + 1)) ∧
      (e.line? = none ∨ e.line? = some 1) ∧ ∀ e', RefusedFor 1 bad.toList e' ↔ e' = e := by
  have own := productions_of_ofLines refused fits
  have cause := RuleLine.productions_eq_error_iff.mp own
  refine ⟨?_, cause.line?_eq, ?_⟩
  · have rules : ∀ earlier ∈ pre.map fun line => trim line.toList, IsRule earlier := by
      rw [List.forall_mem_map]
      intro line mem
      obtain ⟨g, accepted⟩ := accepted line mem
      exact RuleLine.isRule_trim_iff.mpr (isRule_of_ofLines accepted)
    rw [ofLines, List.map_append, List.map_cons]
    refine ofNumberedLines_of_refused rules ?_ _
    rw [List.length_map]
    exact cause.atLine _
  · intro e'
    constructor
    · exact fun other => other.unique cause.of_trim
    · rintro rfl
      exact cause.of_trim

/-- The second alternative is reported before the third, and no later line at all. -/
theorem first_refused_line_decides_of_several_faults :
    ofLines (["S -> a | λ", " A → S b "] ++ "B -> b | λ c | " :: ["", "S|T -> a"]) =
        .error (.line 3 .misplacedMarker) ∧
      ∀ e, RefusedFor 1 "B -> b | λ c | ".toList e ↔ e = .line 1 .misplacedMarker := by
  have accepted : ∀ line ∈ ["S -> a | λ", " A → S b "], ∃ g, ofLines [line] = .ok g :=
    List.forall_mem_cons.mpr ⟨⟨_, rfl⟩, List.forall_mem_singleton.mpr ⟨_, rfl⟩⟩
  have refused : ofLines ["B -> b | λ c | "] = .error (.line 1 .misplacedMarker) := by rfl
  obtain ⟨whole, -, order⟩ :=
    first_refused_line_decides ["", "S|T -> a"] accepted refused (by simp)
  exact ⟨whole, order⟩

end Grammar

end GrammarFixpoint
