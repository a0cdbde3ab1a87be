/-! The separator of a rule, written as the two characters of `->` or as the one
character `→`. Occurrences of the two-character form cannot overlap, so reading
a text from its end finds the same ones as reading it from its beginning. -/

namespace GrammarFixpoint.Text

/-- Whether the two-character arrow stands somewhere in the text. -/
def hasArrow : List Char → Bool
  | '-' :: '>' :: _ => true
  | _ :: rest => hasArrow rest
  | [] => false

/-- One more character in front of a text that is already split. -/
def splitArrowStep (c : Char) : List (List Char) → List (List Char)
  | [] => if c = '→' then [[], []] else [[c]]
  | piece :: pieces =>
    if c = '→' then [] :: piece :: pieces
    else match c, piece with
      | '-', '>' :: piece => [] :: piece :: pieces
      | c, piece => (c :: piece) :: pieces

/-- The pieces between the arrows of a text, one more than it has arrows. -/
def splitArrow (text : List Char) : List (List Char) :=
  text.foldr splitArrowStep [[]]

theorem splitArrow_nil : splitArrow [] = [[]] := rfl

theorem splitArrow_cons (c : Char) (text : List Char) :
    splitArrow (c :: text) = splitArrowStep c (splitArrow text) := rfl

theorem splitArrow_ne_nil (text : List Char) : splitArrow text ≠ [] := by
  cases text with
  | nil => simp [splitArrow_nil]
  | cons c text =>
    rw [splitArrow_cons]
    unfold splitArrowStep
    repeat' split
    all_goals simp

theorem splitArrow_sign (text : List Char) : splitArrow ('→' :: text) = [] :: splitArrow text := by
  rw [splitArrow_cons]
  cases h : splitArrow text with
  | nil => exact absurd h (splitArrow_ne_nil text)
  | cons piece pieces => simp [splitArrowStep]

theorem splitArrow_arrow (text : List Char) :
    splitArrow ('-' :: '>' :: text) = [] :: splitArrow text := by
  rw [splitArrow_cons, splitArrow_cons]
  cases h : splitArrow text with
  | nil => exact absurd h (splitArrow_ne_nil text)
  | cons piece pieces => simp [splitArrowStep]

end GrammarFixpoint.Text
