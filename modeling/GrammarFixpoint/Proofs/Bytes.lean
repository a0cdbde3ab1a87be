import GrammarFixpoint.NameSet

/-! Names in the order of their bytes. Tables of names ascend by code point, and UTF-8
keeps that order: of two characters the encoding of the greater one has a greater byte
where the encodings first differ, whatever follows, because a longer encoding begins
with a greater byte and encodings of one length write the code point in digits of a
fixed base. -/

namespace GrammarFixpoint

/-- The name in UTF-8. -/
def bytes (name : String) : List UInt8 := name.toByteArray.data.toList

theorem bytes_eq_flatMap (name : String) : bytes name = name.toList.flatMap String.utf8EncodeChar := by
  rw [bytes, ← String.utf8Encode_toList, List.utf8Encode, List.data_toByteArray]

theorem ofNat_cons_lt_iff {a b : Nat} (ha : a < 256) (hb : b < 256) (s t : List UInt8) :
    UInt8.ofNat a :: s < UInt8.ofNat b :: t ↔ a < b ∨ a = b ∧ s < t := by
  rw [List.cons_lt_cons_iff, UInt8.lt_iff_toNat_lt, ← UInt8.toNat_inj, UInt8.toNat_ofNat_of_lt' ha,
    UInt8.toNat_ofNat_of_lt' hb]

theorem utf8EncodeChar_append_lt {c d : Char} (h : c < d) (s t : List UInt8) :
    String.utf8EncodeChar c ++ s < String.utf8EncodeChar d ++ t := by
  have lt : c.val.toNat < d.val.toNat := h
  have bound : d.val.toNat < 1114112 := by
    rcases d.valid with h | h <;> omega
  -- all bytes but the first are digits to the base 64
  have digits (v : Nat) : v / 4096 = v / 64 / 64 ∧ v / 262144 = v / 64 / 64 / 64 := by omega
  unfold String.utf8EncodeChar
  generalize c.val.toNat = v at *
  generalize d.val.toNat = w at *
  simp only [(digits v).1, (digits v).2, (digits w).1, (digits w).2]
  repeat' split
  all_goals
    simp (disch := omega) only [List.cons_append, List.nil_append, ofNat_cons_lt_iff]
    omega

theorem flatMap_utf8EncodeChar_lt {text other : List Char} (h : text < other) :
    text.flatMap String.utf8EncodeChar < other.flatMap String.utf8EncodeChar := by
  induction other generalizing text with
  | nil => exact absurd h (List.not_lt_nil text)
  | cons d other ih =>
    cases text with
    | nil =>
      obtain ⟨first, later, eq⟩ := List.exists_cons_of_ne_nil (String.utf8EncodeChar_ne_nil (c := d))
      rw [List.flatMap_cons, eq]
      exact List.nil_lt_cons _ _
    | cons c text =>
      rw [List.flatMap_cons, List.flatMap_cons]
      rcases List.cons_lt_cons_iff.mp h with lt | ⟨rfl, lt⟩
      · exact utf8EncodeChar_append_lt lt _ _
      · exact List.append_left_lt (ih lt)

/-- Names in ascending order are in ascending order by their bytes. -/
theorem bytes_lt {name other : String} (h : name < other) : bytes name < bytes other := by
  rw [bytes_eq_flatMap, bytes_eq_flatMap]
  exact flatMap_utf8EncodeChar_lt (String.lt_iff.mp h)

end GrammarFixpoint
