import GrammarFixpoint.Text.Arrow
import GrammarFixpoint.Text.Blank
import GrammarFixpoint.Text.Lines

/-! Taking a text apart at arrows, bars, blanks and line ends. What is parted holds
no separator of its own, so a text that was put together from such pieces falls
into the same pieces again. Only the arrow has two characters: it could come about
where two pieces meet, and it does not as long as a bar or a blank stands between. -/

namespace GrammarFixpoint.Text

/-- The first piece begins the list, and all pieces stand in it without a separator. -/
theorem exists_splitOnP_eq_cons {α : Type} (p : α → Bool) (xs : List α) :
    ∃ first pieces, xs.splitOnP p = first :: pieces ∧ first <+: xs ∧ (∀ x ∈ first, p x = false) ∧
      ∀ piece ∈ pieces, piece <:+: xs ∧ ∀ x ∈ piece, p x = false := by
  induction xs with
  | nil => exact ⟨[], [], List.splitOnP_nil, List.prefix_rfl, by simp, by simp⟩
  | cons x xs ih =>
    obtain ⟨first, pieces, eq, inside, free, others⟩ := ih
    have later : ∀ piece ∈ pieces, piece <:+: x :: xs ∧ ∀ y ∈ piece, p y = false :=
      fun piece mem => ⟨(others piece mem).1.trans (List.suffix_cons x xs).isInfix, (others piece mem).2⟩
    rw [List.splitOnP_cons_eq_if_modifyHead, eq]
    split
    · refine ⟨[], first :: pieces, rfl, List.nil_prefix, by simp, ?_⟩
      exact List.forall_mem_cons.mpr
        ⟨⟨inside.isInfix.trans (List.suffix_cons x xs).isInfix, free⟩, later⟩
    · next other =>
      exact ⟨x :: first, pieces, rfl, List.cons_prefix_cons.mpr ⟨rfl, inside⟩,
        List.forall_mem_cons.mpr ⟨by simpa using other, free⟩, later⟩

theorem infix_of_mem_splitOnP {α : Type} {p : α → Bool} {xs piece : List α}
    (h : piece ∈ xs.splitOnP p) : piece <:+: xs ∧ ∀ x ∈ piece, p x = false := by
  obtain ⟨first, pieces, eq, inside, free, others⟩ := exists_splitOnP_eq_cons p xs
  rw [eq] at h
  rcases List.mem_cons.mp h with rfl | h
  · exact ⟨inside.isInfix, free⟩
  · exact others piece h

theorem mem_intercalate {α : Type} {sep : List α} {pieces : List (List α)} {x : α}
    (h : x ∈ sep.intercalate pieces) : x ∈ sep ∨ ∃ piece ∈ pieces, x ∈ piece := by
  induction pieces with
  | nil => exact absurd h List.not_mem_nil
  | cons piece pieces ih =>
    cases pieces with
    | nil => exact .inr ⟨piece, List.mem_cons_self, by simpa using h⟩
    | cons piece' pieces =>
      rw [List.intercalate_cons_cons, List.append_assoc] at h
      rcases List.mem_append.mp h with h | h
      · exact .inr ⟨piece, List.mem_cons_self, h⟩
      rcases List.mem_append.mp h with h | h
      · exact .inl h
      rcases ih h with h | ⟨other, mem, h⟩
      · exact .inl h
      · exact .inr ⟨other, List.mem_cons_of_mem _ mem, h⟩

/-- Texts are parted in the same place by the first separator that they hold. -/
theorem eq_of_append_cons {α : Type} [BEq α] [LawfulBEq α] {sep : α} {front front' rest rest' : List α}
    (free : sep ∉ front) (free' : sep ∉ front') (eq : front ++ sep :: rest = front' ++ sep :: rest') :
    front = front' ∧ rest = rest' := by
  have split := congrArg (List.splitOn sep) eq
  rw [List.splitOn_append_cons_self_of_not_mem free,
    List.splitOn_append_cons_self_of_not_mem free'] at split
  obtain ⟨rfl, -⟩ := List.cons.inj split
  exact ⟨rfl, (List.cons.inj (List.append_cancel_left eq)).2⟩

variable {text before after : List Char} {c : Char}

/-! Arrows. -/

/-- Neither arrow stands in the text. -/
def ArrowFree (text : List Char) : Prop := '→' ∉ text ∧ hasArrow text = false

theorem hasArrow_cons (h : ∀ rest, c = '-' → text ≠ '>' :: rest) :
    hasArrow (c :: text) = hasArrow text := by
  rw [hasArrow]
  exact fun rest minus eq => h rest minus eq

theorem hasArrow_append_arrow (before after : List Char) :
    hasArrow (before ++ '-' :: '>' :: after) = true := by
  induction before with
  | nil => rfl
  | cons c before ih =>
    rw [List.cons_append]
    unfold hasArrow
    split
    · rfl
    · next same => exact (List.cons.inj same).2 ▸ ih
    · next same => cases same

theorem arrowFree_nil : ArrowFree [] := ⟨List.not_mem_nil, rfl⟩

theorem arrowFree_cons : ArrowFree (c :: text) ↔
    c ≠ '→' ∧ (∀ rest, c = '-' → text ≠ '>' :: rest) ∧ ArrowFree text := by
  constructor
  · intro h
    obtain ⟨sign, arrow⟩ := h
    rw [List.mem_cons, not_or] at sign
    have apart : ∀ rest, c = '-' → text ≠ '>' :: rest := by
      intro rest minus eq
      rw [minus, eq, hasArrow] at arrow
      cases arrow
    rw [hasArrow_cons apart] at arrow
    exact ⟨Ne.symm sign.1, apart, sign.2, arrow⟩
  · intro h
    obtain ⟨sign, apart, free⟩ := h
    rw [ArrowFree, hasArrow_cons apart, List.mem_cons, not_or]
    exact ⟨⟨Ne.symm sign, free.1⟩, free.2⟩

theorem ArrowFree.of_append (h : ArrowFree (before ++ after)) :
    ArrowFree before ∧ ArrowFree after := by
  induction before with
  | nil => exact ⟨arrowFree_nil, h⟩
  | cons c before ih =>
    obtain ⟨sign, apart, free⟩ := arrowFree_cons.mp h
    refine ⟨arrowFree_cons.mpr ⟨sign, ?_, (ih free).1⟩, (ih free).2⟩
    rintro rest minus rfl
    exact apart (rest ++ after) minus rfl

theorem ArrowFree.of_piece {piece : List Char} (h : ArrowFree text) (inside : piece <:+: text) :
    ArrowFree piece := by
  obtain ⟨before, after, rfl⟩ := inside
  exact h.of_append.1.of_append.2

/-- No arrow comes about across a character that is part of none. -/
theorem ArrowFree.append_cons (hb : ArrowFree before) (ha : ArrowFree after)
    (sign : c ≠ '→') (minus : c ≠ '-') (greater : c ≠ '>') :
    ArrowFree (before ++ c :: after) := by
  induction before with
  | nil => exact arrowFree_cons.mpr ⟨sign, fun _ eq => absurd eq minus, ha⟩
  | cons d before ih =>
    obtain ⟨sign, apart, hb⟩ := arrowFree_cons.mp hb
    refine arrowFree_cons.mpr ⟨sign, ?_, ih hb⟩
    intro rest eq
    cases before with
    | nil =>
      intro same
      exact greater (List.cons.inj same).1
    | cons e before =>
      intro same
      exact apart before eq (by rw [(List.cons.inj same).1])

/-- No character of the separator is part of an arrow. -/
def Plain (sep : List Char) : Prop := ∀ c ∈ sep, c ≠ '→' ∧ c ≠ '-' ∧ c ≠ '>'

theorem ArrowFree.append_plain {sep : List Char} (ne : sep ≠ []) (plain : Plain sep)
    (hb : ArrowFree before) (ha : ArrowFree after) : ArrowFree (before ++ (sep ++ after)) := by
  induction sep generalizing before with
  | nil => exact absurd rfl ne
  | cons c sep ih =>
    obtain ⟨⟨sign, minus, greater⟩, plain⟩ := List.forall_mem_cons.mp plain
    refine hb.append_cons ?_ sign minus greater
    cases sep with
    | nil => exact ha
    | cons d sep => exact ih (List.cons_ne_nil d sep) plain arrowFree_nil

/-- A plain separator keeps the pieces apart. -/
theorem ArrowFree.intercalate {sep : List Char} {pieces : List (List Char)} (ne : sep ≠ [])
    (plain : Plain sep) (free : ∀ piece ∈ pieces, ArrowFree piece) :
    ArrowFree (sep.intercalate pieces) := by
  induction pieces with
  | nil => exact arrowFree_nil
  | cons piece pieces ih =>
    obtain ⟨first, free⟩ := List.forall_mem_cons.mp free
    cases pieces with
    | nil => simpa using first
    | cons piece' pieces =>
      rw [List.intercalate_cons_cons, List.append_assoc]
      exact first.append_plain ne plain (ih free)

/-- The three ways to put a character in front. -/
theorem splitArrowStep_cases (c : Char) (piece : List Char) (pieces : List (List Char)) :
    (c = '→' ∧ splitArrowStep c (piece :: pieces) = [] :: piece :: pieces) ∨
    (∃ later, c = '-' ∧ piece = '>' :: later ∧
      splitArrowStep c (piece :: pieces) = [] :: later :: pieces) ∨
    (c ≠ '→' ∧ (∀ rest, c = '-' → piece ≠ '>' :: rest) ∧
      splitArrowStep c (piece :: pieces) = (c :: piece) :: pieces) := by
  by_cases sign : c = '→'
  · exact .inl ⟨sign, by simp only [splitArrowStep, if_pos sign]⟩
  · simp only [splitArrowStep, if_neg sign]
    split
    · next later => exact .inr (.inl ⟨later, rfl, rfl, rfl⟩)
    · next apart => exact .inr (.inr ⟨sign, apart, rfl⟩)

/-- Text without an arrow belongs to one piece. -/
theorem splitArrow_append (free : ArrowFree text) {pieces : List (List Char)}
    (h : splitArrow after = [] :: pieces) : splitArrow (text ++ after) = text :: pieces := by
  induction text with
  | nil => exact h
  | cons c text ih =>
    obtain ⟨sign, apart, free⟩ := arrowFree_cons.mp free
    rw [List.cons_append, splitArrow_cons, ih free]
    -- the text is free of arrows, so the new character opens none
    rcases splitArrowStep_cases c text pieces with ⟨eq, -⟩ | ⟨later, eq, same, -⟩ | ⟨-, -, eq⟩
    · exact absurd eq sign
    · exact absurd same (apart later eq)
    · exact eq

theorem splitArrow_of_free (free : ArrowFree text) : splitArrow text = [text] := by
  simpa using splitArrow_append free splitArrow_nil

theorem arrowFree_of_mem_splitArrow {piece : List Char} (h : piece ∈ splitArrow text) :
    ArrowFree piece := by
  induction text generalizing piece with
  | nil =>
    rw [splitArrow_nil, List.mem_singleton] at h
    exact h ▸ arrowFree_nil
  | cons c text ih =>
    rw [splitArrow_cons] at h
    cases rest : splitArrow text with
    | nil => exact absurd rest (splitArrow_ne_nil text)
    | cons first pieces =>
      rw [rest] at ih h
      have free : ArrowFree first := ih List.mem_cons_self
      have others : ∀ piece ∈ pieces, ArrowFree piece := fun piece mem =>
        ih (List.mem_cons_of_mem first mem)
      rcases splitArrowStep_cases c first pieces with
        ⟨-, eq⟩ | ⟨later, -, same, eq⟩ | ⟨sign, apart, eq⟩
      · rw [eq] at h
        rcases List.mem_cons.mp h with rfl | h
        · exact arrowFree_nil
        · exact ih h
      · rw [eq] at h
        rw [same] at free
        rcases List.mem_cons.mp h with rfl | h
        · exact arrowFree_nil
        rcases List.mem_cons.mp h with rfl | h
        · exact (arrowFree_cons.mp free).2.2
        · exact others piece h
      · rw [eq] at h
        rcases List.mem_cons.mp h with rfl | h
        · exact arrowFree_cons.mpr ⟨sign, apart, free⟩
        · exact others piece h

end GrammarFixpoint.Text
