import GrammarFixpoint.Proofs.Splitting

/-! Words and lines that are put together and read again. Blanks count only where
they part two words, so those that stand around a bar or an arrow do not change
what is read; a line that begins and ends with no blank is read as it is. -/

namespace GrammarFixpoint.Text

variable {text before after : List Char} {c : Char}

theorem blank_space : ∀ c ∈ [' '], isBlank c = true := List.forall_mem_singleton.mpr (by decide)

theorem words_nil : words [] = [] := rfl

/-- A blank parts the words before it from those after it. -/
theorem words_append_cons (blank : isBlank c = true) (before after : List Char) :
    words (before ++ c :: after) = words before ++ words after := by
  simp only [words, List.splitOnP_append_cons before after blank, List.filter_append,
    List.map_append]

theorem words_append_of_blank (blank : ∀ c ∈ before, isBlank c = true) (text : List Char) :
    words (before ++ text) = words text := by
  induction before with
  | nil => rfl
  | cons c before ih =>
    obtain ⟨first, blank⟩ := List.forall_mem_cons.mp blank
    have front := words_append_cons first [] (before ++ text)
    rw [List.nil_append, words_nil, List.nil_append] at front
    rw [List.cons_append, front, ih blank]

theorem words_of_blank (blank : ∀ c ∈ text, isBlank c = true) : words text = [] := by
  simpa [words_nil] using words_append_of_blank blank []

theorem words_of_append_blank (blank : ∀ c ∈ after, isBlank c = true) (text : List Char) :
    words (text ++ after) = words text := by
  cases after with
  | nil => rw [List.append_nil]
  | cons c after =>
    obtain ⟨first, blank⟩ := List.forall_mem_cons.mp blank
    rw [words_append_cons first, words_of_blank blank, List.append_nil]

/-- A name can be one word of a text. -/
def IsWord (name : String) : Prop := name.toList ≠ [] ∧ ∀ c ∈ name.toList, isBlank c = false

theorem IsWord.space_not_mem {name : String} (h : IsWord name) : ' ' ∉ name.toList :=
  fun mem => absurd (h.2 _ mem) (by decide)

theorem words_toList {name : String} (h : IsWord name) : words name.toList = [name] := by
  rw [words, List.splitOnP_eq_singleton h.2]
  simp [h.1]

theorem words_join {names : List String} (h : ∀ name ∈ names, IsWord name) :
    words ([' '].intercalate (names.map String.toList)) = names := by
  induction names with
  | nil => rfl
  | cons name names ih =>
    obtain ⟨first, h⟩ := List.forall_mem_cons.mp h
    cases names with
    | nil => simpa using words_toList first
    | cons name' names =>
      rw [List.map_cons, List.map_cons, List.intercalate_cons_cons, List.append_assoc,
        List.singleton_append, words_append_cons (by decide), words_toList first, ← List.map_cons,
        ih h, List.singleton_append]

/-- A name without spaces ends where the first space of a text stands. -/
theorem eq_of_append_space {name other rest rest' : String} (free : ' ' ∉ name.toList)
    (free' : ' ' ∉ other.toList) (eq : name ++ (" " ++ rest) = other ++ (" " ++ rest')) :
    name = other ∧ rest = rest' := by
  have split := congrArg String.toList eq
  simp only [String.toList_append] at split
  obtain ⟨name_eq, rest_eq⟩ := eq_of_append_cons free free' split
  exact ⟨String.toList_inj.mp name_eq, String.toList_inj.mp rest_eq⟩

/-- A printed arrow has a space before it. -/
theorem append_arrow_eq (left right : String) :
    left ++ " -> " ++ right = left ++ (" " ++ ("-> " ++ right)) := by
  have arrow : " -> " = " " ++ "-> " := by decide
  rw [arrow, String.append_assoc, String.append_assoc]

/-- The words of a text stand in it, and each can be a word by itself. -/
theorem infix_of_mem_words {word : String} (h : word ∈ words text) :
    word.toList <:+: text ∧ IsWord word := by
  obtain ⟨piece, own, rfl⟩ := List.mem_map.mp h
  obtain ⟨own, ne⟩ := List.mem_filter.mp own
  obtain ⟨inside, free⟩ := infix_of_mem_splitOnP own
  rw [IsWord, String.toList_ofList]
  exact ⟨inside, by simpa using ne, free⟩

theorem mem_of_mem_words {word : String} (h : word ∈ words text) (mem : c ∈ word.toList) :
    c ∈ text :=
  (infix_of_mem_words h).1.subset mem

theorem bar_not_mem_of_blank (blank : ∀ c ∈ text, isBlank c = true) : '|' ∉ text := by
  intro mem
  exact absurd (blank _ mem) (by decide)

/-- Blanks at the end go with the last piece and do not change its words. -/
theorem map_words_splitOn_of_append_blank (blank : ∀ c ∈ after, isBlank c = true)
    (text : List Char) :
    ((text ++ after).splitOn '|').map words = (text.splitOn '|').map words := by
  by_cases bar : '|' ∈ text
  · obtain ⟨first, rest, rfl, free⟩ := List.eq_append_cons_of_mem bar
    rw [List.append_assoc, List.cons_append, List.splitOn_append_cons_self_of_not_mem free,
      List.splitOn_append_cons_self_of_not_mem free, List.map_cons, List.map_cons,
      map_words_splitOn_of_append_blank blank rest]
  · have whole : '|' ∉ text ++ after := by
      rw [List.mem_append, not_or]
      exact ⟨bar, bar_not_mem_of_blank blank⟩
    rw [List.splitOn_eq_singleton whole, List.splitOn_eq_singleton bar, List.map_singleton,
      List.map_singleton, words_of_append_blank blank]
termination_by text.length

/-- Bars with blanks around them part the same words as bars alone. -/
theorem map_words_splitOn_bar {blanks b₁ b₂ : List Char} {pieces : List (List Char)}
    (blank : ∀ c ∈ blanks, isBlank c = true) (blank₁ : ∀ c ∈ b₁, isBlank c = true)
    (blank₂ : ∀ c ∈ b₂, isBlank c = true) (ne : pieces ≠ []) (free : ∀ piece ∈ pieces, '|' ∉ piece) :
    ((blanks ++ (b₁ ++ '|' :: b₂).intercalate pieces).splitOn '|').map words =
      pieces.map words := by
  -- the blanks behind a bar stand in front of the next piece
  induction pieces generalizing blanks with
  | nil => exact absurd rfl ne
  | cons piece pieces ih =>
    obtain ⟨first, free⟩ := List.forall_mem_cons.mp free
    cases pieces with
    | nil =>
      have whole : '|' ∉ blanks ++ piece := by
        rw [List.mem_append, not_or]
        exact ⟨bar_not_mem_of_blank blank, first⟩
      rw [List.intercalate_singleton, List.splitOn_eq_singleton whole, List.map_singleton,
        List.map_singleton, words_append_of_blank blank]
    | cons piece' pieces =>
      have whole : '|' ∉ blanks ++ (piece ++ b₁) := by
        rw [List.mem_append, List.mem_append, not_or, not_or]
        exact ⟨bar_not_mem_of_blank blank, first, bar_not_mem_of_blank blank₁⟩
      have shape : blanks ++ (b₁ ++ '|' :: b₂).intercalate (piece :: piece' :: pieces) =
          (blanks ++ (piece ++ b₁)) ++
            '|' :: (b₂ ++ (b₁ ++ '|' :: b₂).intercalate (piece' :: pieces)) := by
        simp [List.intercalate_cons_cons]
      rw [shape, List.splitOn_append_cons_self_of_not_mem whole, List.map_cons, List.map_cons,
        words_append_of_blank blank, words_of_append_blank blank₁,
        ih blank₂ (List.cons_ne_nil piece' pieces) free]

/-! Ends of a line. -/

/-- The text begins and ends with no blank. -/
structure Bare (text : List Char) : Prop where
  head : ∃ c, text.head? = some c ∧ isBlank c = false
  last : ∃ c, text.getLast? = some c ∧ isBlank c = false

theorem Bare.ne_nil (h : Bare text) : text ≠ [] := by
  obtain ⟨c, eq, -⟩ := h.head
  rintro rfl
  cases eq

theorem Bare.append (hb : Bare before) (middle : List Char) (ha : Bare after) :
    Bare (before ++ (middle ++ after)) := by
  obtain ⟨c, head, blank⟩ := hb.head
  obtain ⟨d, last, blank'⟩ := ha.last
  constructor
  · exact ⟨c, by simp [head], blank⟩
  · exact ⟨d, by simp [List.getLast?_append, last], blank'⟩

theorem Bare.intercalate {sep : List Char} {pieces : List (List Char)} (ne : pieces ≠ [])
    (bare : ∀ piece ∈ pieces, Bare piece) : Bare (sep.intercalate pieces) := by
  induction pieces with
  | nil => exact absurd rfl ne
  | cons piece pieces ih =>
    obtain ⟨first, bare⟩ := List.forall_mem_cons.mp bare
    cases pieces with
    | nil => simpa using first
    | cons piece' pieces =>
      rw [List.intercalate_cons_cons, List.append_assoc]
      exact first.append sep (ih (List.cons_ne_nil piece' pieces) bare)

theorem IsWord.bare {name : String} (h : IsWord name) : Bare name.toList := by
  obtain ⟨ne, blank⟩ := h
  constructor
  · exact ⟨_, List.head?_eq_some_head ne, blank _ (List.head_mem ne)⟩
  · exact ⟨_, List.getLast?_eq_some_getLast ne, blank _ (List.getLast_mem ne)⟩

/-- Nothing is dropped in front of a character that is not blank. -/
theorem dropWhile_of_head? (head : text.head? = some c) (blank : isBlank c = false) :
    text.dropWhile isBlank = text := by
  cases text with
  | nil => cases head
  | cons d text =>
    cases head
    exact List.dropWhile_cons_of_neg (by simp [blank])

theorem Bare.trim_eq (h : Bare text) : trim text = text := by
  obtain ⟨c, head, blank⟩ := h.head
  obtain ⟨d, last, blank'⟩ := h.last
  rw [List.getLast?_eq_head?_reverse] at last
  rw [trim, dropWhile_of_head? head blank, dropWhile_of_head? last blank', List.reverse_reverse]

theorem Bare.dropReturn_eq (h : Bare text) : dropReturn text = text := by
  obtain ⟨c, last, blank⟩ := h.last
  rw [dropReturn, last, if_neg]
  intro eq
  rw [Option.some.inj eq] at blank
  exact absurd blank (by decide)

/-- What is trimmed off a text is blank. -/
theorem exists_eq_append_trim (text : List Char) :
    ∃ before after, text = before ++ (trim text ++ after) ∧ (∀ c ∈ before, isBlank c = true) ∧
      ∀ c ∈ after, isBlank c = true := by
  refine ⟨text.takeWhile isBlank, ((text.dropWhile isBlank).reverse.takeWhile isBlank).reverse,
    ?_, List.all_eq_true.mp List.all_takeWhile, ?_⟩
  · rw [trim, ← List.reverse_append, List.takeWhile_append_dropWhile, List.reverse_reverse,
      List.takeWhile_append_dropWhile]
  · intro c mem
    exact List.all_eq_true.mp List.all_takeWhile c (List.mem_reverse.mp mem)

theorem trim_eq_nil_iff : trim text = [] ↔ ∀ c ∈ text, isBlank c = true := by
  constructor
  · intro h
    obtain ⟨before, after, eq, blank, blank'⟩ := exists_eq_append_trim text
    rw [h, List.nil_append] at eq
    rw [eq, List.forall_mem_append]
    exact ⟨blank, blank'⟩
  · intro h
    rw [trim, ← List.append_nil text, List.dropWhile_append_of_pos h]
    rfl

theorem isEmpty_trim (text : List Char) : (trim text).isEmpty = text.all isBlank := by
  rw [Bool.eq_iff_iff, List.isEmpty_iff, trim_eq_nil_iff, List.all_eq_true]

/-- Pieces that are ended by a separator each are split apart there, with nothing behind
the last one. -/
theorem splitOn_ended {α : Type} [BEq α] [LawfulBEq α] {sep : α} {pieces : List (List α)}
    (free : ∀ piece ∈ pieces, sep ∉ piece) :
    (pieces.flatMap (· ++ [sep])).splitOn sep = pieces ++ [[]] := by
  induction pieces with
  | nil => rfl
  | cons piece pieces ih =>
    obtain ⟨first, free⟩ := List.forall_mem_cons.mp free
    rw [List.flatMap_cons, List.append_assoc, List.singleton_append,
      List.splitOn_append_cons_self_of_not_mem first, ih free, List.cons_append]

/-- Bare lines that are ended are read as they are. -/
theorem lines_of_bare {rows : List (List Char)} (bare : ∀ row ∈ rows, Bare row)
    (whole : ∀ row ∈ rows, '\n' ∉ row) : lines (rows.flatMap (· ++ ['\n'])) = rows := by
  have ended : rows.map dropReturn = rows :=
    (List.map_congr_left fun row mem => (bare row mem).dropReturn_eq).trans (List.map_id rows)
  simp [lines, splitOn_ended whole, ended]

end GrammarFixpoint.Text
