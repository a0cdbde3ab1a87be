import GrammarFixpoint.Proofs.Built
import GrammarFixpoint.Proofs.Rules
import GrammarFixpoint.Proofs.Words
import Mathlib.Data.List.Forall2

/-! What a line of a rule file is. It has a separator at exactly one place, one name
before it and a list of alternatives behind it, and whoever reads the line this way says
nothing about how it is taken apart. Separators do not overlap, so counting the places
where one begins is enough to know that splitting at them leaves two sides. A name on
either side is a word of a text without arrows, which makes it legal unless it holds a
bar, and only a left-hand side can hold one. -/

namespace GrammarFixpoint

open Text

/-- How the two sides of a line can be parted. -/
def separators : List (List Char) := [['-', '>'], ['→']]

/-- A separator stands at the beginning of the text. -/
def opensSeparator (text : List Char) : Bool := separators.any (·.isPrefixOf text)

/-- The number of places in a text where a separator begins. -/
def separatorCount : List Char → Nat
  | [] => 0
  | c :: text => (if opensSeparator (c :: text) then 1 else 0) + separatorCount text

section Separators

variable {text before after separator : List Char} {c : Char}

theorem opensSeparator_cons :
    opensSeparator (c :: text) = true ↔ c = '→' ∨ c = '-' ∧ text.head? = some '>' := by
  cases text with
  | nil => simpa [opensSeparator, separators] using eq_comm
  | cons d text =>
    simp only [opensSeparator, separators, List.any_cons, List.any_nil, List.isPrefixOf_cons_cons,
      List.isPrefixOf_nil_left, Bool.and_true, Bool.or_false, Bool.or_eq_true, Bool.and_eq_true,
      beq_iff_eq, List.head?_cons, Option.some.injEq]
    rw [or_comm, eq_comm (a := c), eq_comm (a := c), eq_comm (a := d)]

theorem separatorCount_eq_zero_iff : separatorCount text = 0 ↔ ArrowFree text := by
  induction text with
  | nil => exact ⟨fun _ => arrowFree_nil, fun _ => rfl⟩
  | cons c text ih =>
    have apart : (∀ rest, c = '-' → text ≠ '>' :: rest) ↔ ¬ (c = '-' ∧ text.head? = some '>') := by
      cases text <;> simp
    have closed : (c ≠ '→' ∧ ∀ rest, c = '-' → text ≠ '>' :: rest) ↔
        ¬ opensSeparator (c :: text) = true := by
      rw [opensSeparator_cons, not_or, apart]
    rw [arrowFree_cons, ← and_assoc, closed, ← ih, separatorCount]
    by_cases opens : opensSeparator (c :: text) = true <;> simp [opens]

/-- A separator lies on one side of a place that no second half follows. -/
theorem separatorCount_append (half : after.head? ≠ some '>') :
    separatorCount (before ++ after) = separatorCount before + separatorCount after := by
  induction before with
  | nil => simp [separatorCount]
  | cons c before ih =>
    have same : opensSeparator (c :: (before ++ after)) = opensSeparator (c :: before) := by
      rw [Bool.eq_iff_iff, opensSeparator_cons, opensSeparator_cons]
      cases before <;> simp [half]
    rw [List.cons_append, separatorCount, separatorCount, same, ih, Nat.add_assoc]

theorem separatorCount_separator_append (mem : separator ∈ separators) (after : List Char) :
    separatorCount (separator ++ after) = 1 + separatorCount after := by
  simp only [separators, List.mem_cons, List.not_mem_nil, or_false] at mem
  rcases mem with rfl | rfl <;> simp [separatorCount, opensSeparator, separators]

theorem separatorCount_sides (mem : separator ∈ separators) :
    separatorCount (before ++ (separator ++ after)) =
      separatorCount before + (1 + separatorCount after) := by
  rw [← separatorCount_separator_append mem, separatorCount_append]
  simp only [separators, List.mem_cons, List.not_mem_nil, or_false] at mem
  rcases mem with rfl | rfl <;> simp

theorem splitArrow_separator_append (mem : separator ∈ separators) (after : List Char) :
    splitArrow (separator ++ after) = [] :: splitArrow after := by
  simp only [separators, List.mem_cons, List.not_mem_nil, or_false] at mem
  rcases mem with rfl | rfl
  · exact splitArrow_arrow after
  · exact splitArrow_sign after

/-- A text is put together again from its first piece and what follows the separator. -/
theorem eq_of_splitArrow_eq_cons {piece : List Char} {pieces : List (List Char)}
    (h : splitArrow text = piece :: pieces) :
    pieces = [] ∧ text = piece ∨
      ∃ separator ∈ separators, ∃ rest,
        text = piece ++ (separator ++ rest) ∧ splitArrow rest = pieces := by
  induction text generalizing piece pieces with
  | nil =>
    rw [splitArrow_nil] at h
    cases h
    exact .inl ⟨rfl, rfl⟩
  | cons c text ih =>
    rw [splitArrow_cons] at h
    cases later : splitArrow text with
    | nil => exact absurd later (splitArrow_ne_nil text)
    | cons first others =>
      rw [later] at h
      rcases splitArrowStep_cases c first others with
        ⟨rfl, eq⟩ | ⟨rest, rfl, rfl, eq⟩ | ⟨-, -, eq⟩
      · rw [eq] at h
        cases h
        exact .inr ⟨['→'], by simp [separators], text, rfl, later⟩
      · rw [eq] at h
        cases h
        -- the second half of the separator is the character that the text begins with
        obtain ⟨text, rfl⟩ : ∃ behind, text = '>' :: behind := by
          rcases ih later with ⟨-, same⟩ | ⟨separator, -, behind, same, -⟩
          · exact ⟨rest, same⟩
          · exact ⟨rest ++ (separator ++ behind), same⟩
        refine .inr ⟨['-', '>'], by simp [separators], text, rfl, ?_⟩
        cases split : splitArrow text with
        | nil => exact absurd split (splitArrow_ne_nil text)
        | cons piece pieces =>
          have shifted : splitArrow ('>' :: text) = ('>' :: piece) :: pieces := by
            rw [splitArrow_cons, split]
            simp [splitArrowStep]
          rw [later] at shifted
          cases shifted
          rfl
      · rw [eq] at h
        cases h
        rcases ih later with ⟨unsplit, same⟩ | ⟨separator, mem, rest, same, split⟩
        · exact .inl ⟨unsplit, by rw [same]⟩
        · exact .inr ⟨separator, mem, rest, by rw [same, List.cons_append], split⟩

/-- Splitting a text leaves two sides where it has a separator at exactly one place. -/
theorem splitArrow_eq_pair_iff :
    splitArrow text = [before, after] ↔
      separatorCount text = 1 ∧
        ∃ separator ∈ separators, text = before ++ (separator ++ after) := by
  constructor
  · intro h
    rcases eq_of_splitArrow_eq_cons h with ⟨unsplit, -⟩ | ⟨separator, mem, rest, rfl, split⟩
    · cases unsplit
    rcases eq_of_splitArrow_eq_cons split with ⟨-, rfl⟩ | ⟨_, _, _, _, unsplit⟩
    · have free : ∀ piece ∈ [before, rest], ArrowFree piece := fun piece mem =>
        arrowFree_of_mem_splitArrow (h ▸ mem)
      obtain ⟨free, free'⟩ : ArrowFree before ∧ ArrowFree rest := by simpa using free
      refine ⟨?_, separator, mem, rfl⟩
      rw [separatorCount_sides mem, separatorCount_eq_zero_iff.mpr free,
        separatorCount_eq_zero_iff.mpr free']
    · exact absurd unsplit (splitArrow_ne_nil _)
  · intro h
    obtain ⟨single, separator, mem, rfl⟩ := h
    rw [separatorCount_sides mem] at single
    have free : ArrowFree before := separatorCount_eq_zero_iff.mp (by omega)
    have free' : ArrowFree after := separatorCount_eq_zero_iff.mp (by omega)
    exact splitArrow_append free
      ((splitArrow_separator_append mem after).trans (by rw [splitArrow_of_free free']))

-- Halves of the other separator on its two sides belong to the names there.
example : separatorCount "S-→>a".toList = 1 := by decide

end Separators

/-! Names. -/

/-- A name that is read back: legal, and without the arrow that legal names may hold. -/
def Readable (name : String) : Prop := isLegalName name = true ∧ '→' ∉ name.toList

theorem isLegalName_iff {name : String} :
    isLegalName name = true ↔ IsWord name ∧ '|' ∉ name.toList ∧
      hasArrow name.toList = false ∧ isMarker name = false := by
  simp only [isLegalName, IsWord, Bool.and_eq_true, Bool.not_eq_true', List.all_eq_true,
    List.isEmpty_eq_false_iff, bne_iff_ne, ne_eq]
  constructor
  · intro h
    obtain ⟨⟨⟨ne, own⟩, arrow⟩, marker⟩ := h
    exact ⟨⟨ne, fun c mem => (own c mem).1⟩, fun mem => (own _ mem).2 rfl, arrow, marker⟩
  · intro h
    obtain ⟨⟨ne, blank⟩, bar, arrow, marker⟩ := h
    refine ⟨⟨⟨ne, fun c mem => ⟨blank c mem, ?_⟩⟩, arrow⟩, marker⟩
    rintro rfl
    exact bar mem

/-! The sides of a line. -/

/-- What the words of one alternative spell: a marker alone the empty string, and
words of which none is a marker themselves. -/
inductive Spells : List String → List String → Prop where
  | empty {marker : String} (h : isMarker marker = true) : Spells [marker] []
  | names {words : List String} (ne : words ≠ []) (plain : ∀ word ∈ words, isMarker word = false) :
      Spells words words

/-- The line is the rule: one separator, one name before it, and behind it the
alternatives with bars between them. -/
structure WrittenRule.StandsIn (rule : WrittenRule) (line : List Char) : Prop where
  single : separatorCount line = 1
  sides : ∃ before separator after, separator ∈ separators ∧
    line = before ++ (separator ++ after) ∧ words before = [rule.left] ∧
      List.Forall₂ Spells ((after.splitOn '|').map words) rule.alternatives
  not_marker : isMarker rule.left = false
  bar : '|' ∉ rule.left.toList

theorem Spells.not_nil {names : List String} : ¬ Spells [] names := by
  intro h
  cases h with
  | names ne plain => exact ne rfl

theorem Spells.mem {parts names : List String} (h : Spells parts names) :
    ∀ name ∈ names, name ∈ parts ∧ isMarker name = false := by
  intro name mem
  cases h with
  | empty marker => cases mem
  | names ne plain => exact ⟨mem, plain name mem⟩

/-- A word of a text without arrows is read back unless it holds a bar or is a marker. -/
theorem readable_of_mem_words {text : List Char} {word : String} (free : ArrowFree text)
    (mem : word ∈ words text) (bar : '|' ∉ word.toList) (marker : isMarker word = false) :
    Readable word := by
  obtain ⟨inside, isWord⟩ := infix_of_mem_words mem
  obtain ⟨sign, arrow⟩ := free.of_piece inside
  exact ⟨isLegalName_iff.mpr ⟨isWord, bar, arrow, marker⟩, sign⟩

theorem exists_of_mem_forall₂ {α β : Type} {R : α → β → Prop} {xs : List α} {ys : List β}
    (h : List.Forall₂ R xs ys) {y : β} (mem : y ∈ ys) : ∃ x ∈ xs, R x y := by
  induction h with
  | nil => cases mem
  | cons first _ ih =>
    rcases List.mem_cons.mp mem with rfl | mem
    · exact ⟨_, List.mem_cons_self, first⟩
    · obtain ⟨x, own, related⟩ := ih mem
      exact ⟨x, List.mem_cons_of_mem _ own, related⟩

theorem WrittenRule.StandsIn.splitArrow_eq {rule : WrittenRule} {line : List Char}
    (h : rule.StandsIn line) :
    ∃ before after, splitArrow line = [before, after] ∧ words before = [rule.left] ∧
      List.Forall₂ Spells ((after.splitOn '|').map words) rule.alternatives := by
  obtain ⟨before, separator, after, mem, eq, own⟩ := h.sides
  exact ⟨before, after, splitArrow_eq_pair_iff.mpr ⟨h.single, separator, mem, eq⟩, own⟩

/-- What is spelled between the bars of a text without arrows is read back. -/
theorem Spells.readable {after text : List Char} {names : List String} (free : ArrowFree after)
    (piece : text ∈ after.splitOn '|') (h : Spells (words text) names) :
    ∀ name ∈ names, Readable name := by
  intro name mem
  obtain ⟨own, plain⟩ := h.mem name mem
  rw [List.splitOn_eq_splitOnP] at piece
  obtain ⟨inside, apart⟩ := infix_of_mem_splitOnP piece
  refine readable_of_mem_words (free.of_piece inside) own ?_ plain
  intro bar
  simpa using apart '|' (mem_of_mem_words own bar)

/-- The name before the separator and those behind it are read back. -/
theorem readable_of_splitArrow {line before after text : List Char} {left : String}
    {names : List String} (pair : splitArrow line = [before, after]) (word : words before = [left])
    (marker : isMarker left = false) (bar : '|' ∉ left.toList) (piece : text ∈ after.splitOn '|')
    (spells : Spells (words text) names) : ∀ name ∈ left :: names, Readable name := by
  have free {side : List Char} (mem : side ∈ [before, after]) : ArrowFree side :=
    arrowFree_of_mem_splitArrow (pair ▸ mem)
  refine List.forall_mem_cons.mpr ⟨?_, spells.readable (free (by simp)) piece⟩
  exact readable_of_mem_words (free (by simp)) (word ▸ List.mem_cons_self) bar marker

theorem WrittenRule.StandsIn.readable {rule : WrittenRule} {line : List Char}
    (h : rule.StandsIn line) :
    ∀ p ∈ rule.productions, ∀ name ∈ p.left :: p.right, Readable name := by
  obtain ⟨before, after, pair, word, spells⟩ := h.splitArrow_eq
  intro p mem
  obtain ⟨names, own, rfl⟩ := List.mem_map.mp mem
  rw [List.forall₂_map_left_iff] at spells
  obtain ⟨text, piece, spelled⟩ := exists_of_mem_forall₂ spells own
  exact readable_of_splitArrow pair word h.not_marker h.bar piece spelled

/-- A run that reads each item whatever its number is reads the items in order. -/
theorem mapM_eq_ok_iff_forall₂ {α β ε : Type} {f : α × Nat → Except ε β} {R : α → β → Prop}
    (step : ∀ item y, f item = .ok y ↔ R item.1 y) {items : List (α × Nat)} {ys : List β} :
    items.mapM f = .ok ys ↔ List.Forall₂ R (items.map Prod.fst) ys := by
  rw [mapM_eq_ok_iff, ← List.forall₂_eq_eq_eq, List.forall₂_map_left_iff,
    List.forall₂_map_right_iff, List.forall₂_map_left_iff]
  simp only [step]

theorem forall₂_exists_iff {α β γ : Type} {R : α → β → Prop} {f : β → γ} {xs : List α}
    {zs : List γ} :
    List.Forall₂ (fun x z => ∃ y, R x y ∧ z = f y) xs zs ↔
      ∃ ys, List.Forall₂ R xs ys ∧ zs = ys.map f := by
  constructor
  · intro h
    induction h with
    | nil => exact ⟨[], .nil, rfl⟩
    | cons first _ ih =>
      obtain ⟨y, related, rfl⟩ := first
      obtain ⟨ys, rest, rfl⟩ := ih
      exact ⟨y :: ys, .cons related rest, rfl⟩
  · intro h
    obtain ⟨ys, related, rfl⟩ := h
    exact List.forall₂_map_right_iff.mpr (related.imp fun _ y own => ⟨y, own, rfl⟩)

namespace RuleLine

variable {line before after : List Char} {left : String}

theorem alternative_eq_ok_iff {index : Nat} {parts names : List String} :
    alternative index parts = .ok names ↔ Spells parts names := by
  constructor
  · intro h
    unfold alternative at h
    split at h
    · cases h
    · split at h
      · next marker =>
        cases h
        exact .empty marker
      · next plain =>
        cases h
        exact .names (by simp) (by simpa using plain)
    · split at h
      · cases h
      · next ne _ plain =>
        cases h
        exact .names ne (by simpa using plain)
  · intro h
    cases h with
    | empty marker => simp [alternative, marker]
    | names ne plain =>
      unfold alternative
      split
      · exact absurd rfl ne
      · simp [plain]
      · simpa using plain

theorem leftHand_eq_ok_iff :
    leftHand before = .ok left ↔ words before = [left] ∧ isMarker left = false := by
  unfold leftHand
  split
  · next name eq =>
    rw [eq, List.singleton_inj]
    split
    · next marker =>
      simp only [reduceCtorEq, false_iff]
      rintro ⟨rfl, plain⟩
      rw [plain] at marker
      cases marker
    · next plain =>
      rw [Except.ok.injEq]
      constructor
      · rintro rfl
        exact ⟨rfl, by simpa using plain⟩
      · exact And.left
  · next several =>
    simp only [reduceCtorEq, false_iff]
    exact fun h => several left h.1

theorem sides_eq_ok_iff :
    sides line = .ok (left, after) ↔
      ∃ before, splitArrow line = [before, after] ∧ words before = [left] ∧
        isMarker left = false := by
  constructor
  · intro h
    unfold sides at h
    split at h
    · next before right eq =>
      cases read : leftHand before with
      | error e => rw [read] at h; cases h
      | ok name =>
        rw [read] at h
        cases h
        exact ⟨before, eq, leftHand_eq_ok_iff.mp read⟩
    all_goals cases h
  · intro h
    obtain ⟨before, eq, own⟩ := h
    rw [sides, eq]
    simp only [leftHand_eq_ok_iff.mpr own]
    rfl

/-- Each piece behind the separator gives a legal production with the names that are
spelled there. -/
theorem pieces_eq_ok_iff {number : Nat} {pieces : List (List Char × Nat)} {ps : List Production} :
    (pieces.mapM fun (text, index) => do
      let names ← (alternative (index + 1) (words text)).mapError (GrammarError.line number)
      Production.checked left names) = .ok ps ↔
    List.Forall₂ (fun text p => (p.left = left ∧ p.Legal) ∧ Spells (words text) p.right)
      (pieces.map Prod.fst) ps := by
  apply mapM_eq_ok_iff_forall₂
  intro piece p
  simp only [bind_eq_ok_iff, mapError_eq_ok_iff, alternative_eq_ok_iff,
    Production.checked_eq_ok_iff]
  constructor
  · rintro ⟨names, spells, rfl, legal⟩
    exact ⟨⟨rfl, legal⟩, spells⟩
  · rintro ⟨⟨rfl, legal⟩, spells⟩
    exact ⟨p.right, spells, rfl, legal⟩

theorem exists_standsIn_of_productions {number : Nat} {ps : List Production}
    (h : productions number line = .ok ps) :
    ∃ rule : WrittenRule, rule.StandsIn line ∧ ps = rule.productions := by
  obtain ⟨⟨left, after⟩, split, read⟩ := bind_eq_ok_iff.mp h
  obtain ⟨before, pair, word, marker⟩ := sides_eq_ok_iff.mp (mapError_eq_ok_iff.mp split)
  obtain ⟨single, separator, mem, rfl⟩ := splitArrow_eq_pair_iff.mp pair
  have read := pieces_eq_ok_iff.mp read
  rw [List.zipIdx_map_fst] at read
  obtain ⟨own, spells⟩ := (List.forall₂_and_left ps _).mp read.flip
  -- a bar on the left is found by the first piece, and there is one
  have bar : '|' ∉ left.toList := by
    obtain ⟨text, texts, pieces⟩ := List.exists_cons_of_ne_nil (List.splitOn_ne_nil '|' after)
    rw [pieces] at read
    obtain ⟨p, _, first, _, rfl⟩ := List.forall₂_cons_left_iff.mp read
    obtain ⟨⟨rfl, legal⟩, -⟩ := first
    exact (isLegalName_iff.mp (legal p.left List.mem_cons_self)).2.1
  refine ⟨⟨left, ps.map Production.right⟩,
    ⟨single, ⟨before, separator, after, mem, rfl, word, ?_⟩, marker, bar⟩,
    (WrittenRule.productions_map_right fun p mem => (own p mem).1).symm⟩
  rw [List.forall₂_map_left_iff, List.forall₂_map_right_iff]
  exact spells.flip

theorem productions_of_standsIn {rule : WrittenRule} (h : rule.StandsIn line) (number : Nat) :
    productions number line = .ok rule.productions := by
  obtain ⟨before, after, pair, word, spells⟩ := h.splitArrow_eq
  have split := sides_eq_ok_iff.mpr ⟨before, pair, word, h.not_marker⟩
  have legal : ∀ names ∈ rule.alternatives, Production.Legal ⟨rule.left, names⟩ := by
    intro names mem name occurs
    exact (h.readable _ (List.mem_map_of_mem mem) name occurs).1
  rw [List.forall₂_map_left_iff] at spells
  have own := (List.forall₂_and_left rule.alternatives _).mpr ⟨legal, spells.flip⟩
  refine bind_eq_ok_iff.mpr ⟨_, mapError_eq_ok_iff.mpr split, pieces_eq_ok_iff.mpr ?_⟩
  rw [List.zipIdx_map_fst, WrittenRule.productions, List.forall₂_map_right_iff]
  exact own.flip.imp fun _ _ h => ⟨⟨rfl, h.1⟩, h.2⟩

/-- A line is read where a rule stands in it, and then as the productions of that rule. -/
theorem productions_eq_ok_iff {number : Nat} {ps : List Production} :
    productions number line = .ok ps ↔
      ∃ rule : WrittenRule, rule.StandsIn line ∧ ps = rule.productions := by
  refine ⟨exists_standsIn_of_productions, ?_⟩
  rintro ⟨rule, stands, rfl⟩
  exact productions_of_standsIn stands number

/-- Lines are read where a rule stands in each of them. -/
theorem mapM_productions_eq_ok_iff {lines : List (List Char × Nat)}
    {pss : List (List Production)} :
    lines.mapM (fun (line, number) => productions number line) = .ok pss ↔
      ∃ rules : List WrittenRule,
        List.Forall₂ (fun line rule => rule.StandsIn line) (lines.map Prod.fst) rules ∧
          pss = rules.map WrittenRule.productions := by
  rw [← forall₂_exists_iff]
  exact mapM_eq_ok_iff_forall₂ fun _ _ => productions_eq_ok_iff

end RuleLine

/-! Blanks around a line. -/

section Blanks

variable {blanks text : List Char}

theorem separatorCount_append_of_blank (blank : ∀ c ∈ blanks, isBlank c = true)
    (text : List Char) : separatorCount (blanks ++ text) = separatorCount text := by
  induction blanks with
  | nil => rfl
  | cons c blanks ih =>
    obtain ⟨first, blank⟩ := List.forall_mem_cons.mp blank
    have closed : opensSeparator (c :: (blanks ++ text)) = false := by
      rw [← Bool.not_eq_true, opensSeparator_cons]
      rintro (rfl | ⟨rfl, -⟩) <;> exact absurd first (by decide)
    rw [List.cons_append, separatorCount, closed, ih blank]
    simp

theorem separatorCount_of_append_blank (blank : ∀ c ∈ blanks, isBlank c = true)
    (text : List Char) : separatorCount (text ++ blanks) = separatorCount text := by
  have half : blanks.head? ≠ some '>' := by
    intro eq
    exact absurd (blank '>' (List.mem_of_head? eq)) (by decide)
  have free : separatorCount blanks = 0 := by
    simpa [separatorCount] using separatorCount_append_of_blank blank []
  rw [separatorCount_append half, free, Nat.add_zero]

theorem WrittenRule.standsIn_append_iff {rule : WrittenRule} {front line back : List Char}
    (blank : ∀ c ∈ front, isBlank c = true) (blank' : ∀ c ∈ back, isBlank c = true) :
    rule.StandsIn (front ++ (line ++ back)) ↔ rule.StandsIn line := by
  have count : separatorCount (front ++ (line ++ back)) = separatorCount line := by
    rw [separatorCount_append_of_blank blank, separatorCount_of_append_blank blank']
  constructor
  · intro h
    obtain ⟨before, separator, after, mem, eq, word, spells⟩ := h.sides
    -- the name stands behind the blanks in front
    obtain ⟨before, rfl⟩ : ∃ rest, before = front ++ rest := by
      rcases List.append_eq_append_iff.mp eq with ⟨rest, same, -⟩ | ⟨rest, same, -⟩
      · exact ⟨rest, same⟩
      · rw [words_of_blank fun c mem => blank c (same ▸ List.mem_append_left rest mem)] at word
        cases word
    rw [List.append_assoc, List.append_cancel_left_eq, ← List.append_assoc] at eq
    rw [words_append_of_blank blank] at word
    -- and an alternative stands before those at the end, since they spell none
    rcases List.append_eq_append_iff.mp eq with ⟨rest, -, same⟩ | ⟨rest, same, rfl⟩
    · have wordless := map_words_splitOn_of_append_blank
        (fun c mem => blank' c (same ▸ List.mem_append_right rest mem)) []
      rw [List.nil_append] at wordless
      rw [wordless] at spells
      obtain ⟨_, _, first, -⟩ := List.forall₂_cons_left_iff.mp spells
      exact absurd first Spells.not_nil
    · rw [map_words_splitOn_of_append_blank blank'] at spells
      rw [List.append_assoc] at same
      exact ⟨count ▸ h.single, ⟨before, separator, rest, mem, same, word, spells⟩,
        h.not_marker, h.bar⟩
  · intro h
    obtain ⟨before, separator, after, mem, rfl, word, spells⟩ := h.sides
    refine ⟨count.trans h.single, ⟨front ++ before, separator, after ++ back, mem, ?_, ?_, ?_⟩,
      h.not_marker, h.bar⟩
    · simp only [List.append_assoc]
    · rw [words_append_of_blank blank, word]
    · rwa [map_words_splitOn_of_append_blank blank']

/-- Trimming takes nothing of a rule away. -/
theorem WrittenRule.standsIn_trim_iff {rule : WrittenRule} {line : List Char} :
    rule.StandsIn (trim line) ↔ rule.StandsIn line := by
  obtain ⟨front, back, eq, blank, blank'⟩ := exists_eq_append_trim line
  conv => rhs; rw [eq]
  exact (standsIn_append_iff blank blank').symm

end Blanks

end GrammarFixpoint
