import GrammarFixpoint.Json.Printer
import GrammarFixpoint.Json.Reader
import GrammarFixpoint.Proofs.Splitting

/-! JSON that is printed and read again. In a quoted text a character is written in
one of three ways, which the reader tells apart by what they begin with, so the
closing quote is the first quote that no backslash stands before. A value begins
with no space and closes no bracket, and its parts have commas between them: the
reader finds the parts one by one. Numbers are left out, for they are printed as
they were read and no value that leaves the library holds one. -/

namespace GrammarFixpoint.Json

/-! ## Texts -/

/-- The characters that are written with a letter, each with its letter. -/
def letters : List (Char × Char) :=
  [('"', '"'), ('\\', '\\'), (Char.ofNat 8, 'b'), ('\t', 't'), ('\n', 'n'), (Char.ofNat 12, 'f'),
   ('\r', 'r')]

theorem escaped_letter : ∀ entry ∈ letters, (escaped entry.1).toList = ['\\', entry.2] ∧
    entry.2 ≠ 'u' ∧ 32 ≤ entry.2.toNat ∧ unescape? entry.2 = some entry.1 := by
  decide

theorem escape?_of_not_mem {c : Char} (other : c ∉ letters.map Prod.fst) :
    escape? c = if c.toNat < 32 then
      some (String.ofList
        ['\\', 'u', '0', '0', Nat.digitChar (c.toNat / 16), Nat.digitChar (c.toNat % 16)])
    else none := by
  have apart {n : Nat} (mem : Char.ofNat n ∈ letters.map Prod.fst) : c.toNat ≠ n := by
    rintro rfl
    exact other (by rwa [Char.ofNat_toNat] at mem)
  have backspace : c.toNat ≠ 8 := apart (by decide)
  have feed : c.toNat ≠ 12 := apart (by decide)
  simp only [letters, List.map_cons, List.map_nil, List.mem_cons, List.not_mem_nil, or_false,
    not_or] at other
  simp only [escape?, other, backspace, feed, if_false]

/-- A character is written with a letter, with its number, or as itself. -/
theorem escaped_cases (c : Char) :
    (∃ letter, (escaped c).toList = ['\\', letter] ∧ letter ≠ 'u' ∧ 32 ≤ letter.toNat ∧
      unescape? letter = some c) ∨
    (∃ high low, (escaped c).toList = ['\\', 'u', '0', '0', high, low] ∧ c.toNat < 32 ∧
      32 ≤ high.toNat ∧ 32 ≤ low.toNat ∧ hexUnit? '0' '0' high low = some c.toNat) ∨
    ((escaped c).toList = [c] ∧ c ≠ '"' ∧ c ≠ '\\' ∧ 32 ≤ c.toNat) := by
  by_cases known : c ∈ letters.map Prod.fst
  · obtain ⟨⟨_, letter⟩, mem, rfl⟩ := List.mem_map.mp known
    exact .inl ⟨letter, escaped_letter _ mem⟩
  · rw [escaped, escape?_of_not_mem known]
    by_cases few : c.toNat < 32
    · have digits : ∀ n < 32, 32 ≤ (Nat.digitChar (n / 16)).toNat ∧
          32 ≤ (Nat.digitChar (n % 16)).toNat ∧
          hexUnit? '0' '0' (Nat.digitChar (n / 16)) (Nat.digitChar (n % 16)) = some n := by decide
      refine .inr (.inl ⟨_, _, ?_, few, digits c.toNat few⟩)
      rw [if_pos few, Option.getD_some, String.toList_ofList]
    · refine .inr (.inr ⟨?_, ?_, ?_, by omega⟩)
      · rw [if_neg few, Option.getD_none, String.toList_singleton]
      · rintro rfl
        exact known (by decide)
      · rintro rfl
        exact known (by decide)

theorem visible_of_mem_escaped {c d : Char} (h : d ∈ (escaped c).toList) : 32 ≤ d.toNat := by
  rcases escaped_cases c with
    ⟨letter, eq, -, many, -⟩ | ⟨high, low, eq, -, many, many', -⟩ | ⟨eq, -, -, many⟩
  · rw [eq] at h
    obtain rfl | rfl : d = '\\' ∨ d = letter := by simpa using h
    · decide
    · exact many
  · rw [eq] at h
    obtain rfl | rfl | rfl | rfl | rfl : d = '\\' ∨ d = 'u' ∨ d = '0' ∨ d = high ∨ d = low := by
      simpa using h
    · decide
    · decide
    · decide
    · exact many
    · exact many'
  · obtain rfl : d = c := by simpa [eq] using h
    exact many

theorem readQuoted_escaped (c : Char) (read rest : List Char) :
    readQuoted none read ((escaped c).toList ++ rest) = readQuoted none (c :: read) rest := by
  rcases escaped_cases c with
    ⟨letter, eq, other, -, back⟩ | ⟨high, low, eq, few, -, -, unit⟩ | ⟨eq, quote, backslash, many⟩
  · rw [eq]
    exact readQuoted.eq_5 read letter rest c (fun _ _ _ _ _ u _ => other u) back
  · have plain : ¬ (0xD800 ≤ c.toNat ∧ c.toNat < 0xDC00) := by omega
    have plain' : ¬ (0xDC00 ≤ c.toNat ∧ c.toNat < 0xE000) := by omega
    rw [eq]
    refine (readQuoted.eq_3 read '0' '0' high low rest c.toNat unit).trans ?_
    simp [plain, plain']
  · have visible : ¬ c.toNat < 32 := by omega
    rw [eq, List.singleton_append, readQuoted]
    · simp [backslash, visible]
    · exact quote
    · exact fun _ _ _ _ _ same _ => backslash same
    · exact fun _ _ same _ => backslash same

/-- The text between quotes. -/
def quoted (text : String) : List Char :=
  '"' :: (text.toList.flatMap (fun c => (escaped c).toList) ++ ['"'])

theorem toList_foldl_escaped (text : List Char) (out : String) :
    (text.foldl (fun out c => out ++ escaped c) out).toList =
      out.toList ++ text.flatMap fun c => (escaped c).toList := by
  induction text generalizing out with
  | nil => simp
  | cons c text ih =>
    rw [List.foldl_cons, ih, String.toList_append, List.flatMap_cons, List.append_assoc]

theorem toList_appendQuoted (out text : String) :
    (appendQuoted out text).toList = out.toList ++ quoted text := by
  simp [appendQuoted, quoted, toList_foldl_escaped]

theorem readQuoted_flatMap (text read rest : List Char) :
    readQuoted none read (text.flatMap (fun c => (escaped c).toList) ++ '"' :: rest) =
      some (String.ofList (read.reverse ++ text), rest) := by
  induction text generalizing read with
  | nil => simp [readQuoted]
  | cons c text ih =>
    rw [List.flatMap_cons, List.append_assoc, readQuoted_escaped, ih]
    simp

/-- What stands behind the opening quote is read up to the closing one. -/
theorem readQuoted_quoted (text : String) (rest : List Char) :
    ∃ behind, quoted text ++ rest = '"' :: behind ∧
      readQuoted none [] behind = some (text, rest) := by
  refine ⟨text.toList.flatMap (fun c => (escaped c).toList) ++ '"' :: rest, by simp [quoted], ?_⟩
  rw [readQuoted_flatMap]
  simp

/-! ## Values -/

/-- The compact form as a list. -/
def characters (json : Json) : List Char := json.compact.toList

/-- A field with its name. -/
def fieldCharacters (field : String × Json) : List Char :=
  quoted field.1 ++ ':' :: field.2.characters

mutual

/-- What a value is printed behind does not change how it is printed. -/
theorem toList_appendTo (out : String) (json : Json) :
    (json.appendTo out).toList = out.toList ++ json.characters := by
  cases json with
  | null => simp [characters, compact, appendTo]
  | bool value => cases value <;> simp [characters, compact, appendTo]
  | number literal => simp [characters, compact, appendTo]
  | string value => simp [characters, compact, appendTo, toList_appendQuoted]
  | list items => simp [characters, compact, appendTo, toList_appendItems _ items]
  | object fields => simp [characters, compact, appendTo, toList_appendFields _ fields]

theorem toList_appendItems (out : String) (items : List Json) :
    (appendItems out items).toList =
      out.toList ++ [','].intercalate (items.map characters) := by
  match items with
  | [] => simp [appendItems]
  | [item] => simp [appendItems, toList_appendTo _ item]
  | item :: item' :: items =>
    simp [appendItems, toList_appendTo _ item, toList_appendItems _ (item' :: items),
      List.intercalate_cons_cons]

theorem toList_appendFields (out : String) (fields : List (String × Json)) :
    (appendFields out fields).toList =
      out.toList ++ [','].intercalate (fields.map fieldCharacters) := by
  match fields with
  | [] => simp [appendFields]
  | [(name, value)] =>
    simp [appendFields, toList_appendTo _ value, toList_appendQuoted, fieldCharacters]
  | (name, value) :: field' :: fields =>
    simp [appendFields, toList_appendTo _ value, toList_appendQuoted, fieldCharacters,
      toList_appendFields _ (field' :: fields), List.intercalate_cons_cons]

end

theorem characters_null : characters .null = ['n', 'u', 'l', 'l'] := rfl

theorem characters_bool (value : Bool) : characters (.bool value) =
    if value then ['t', 'r', 'u', 'e'] else ['f', 'a', 'l', 's', 'e'] := by
  cases value <;> rfl

theorem characters_string (value : String) : (string value).characters = quoted value := by
  simp [characters, compact, appendTo, toList_appendQuoted]

theorem characters_list (items : List Json) :
    (list items).characters = '[' :: ([','].intercalate (items.map characters) ++ [']']) := by
  rw [characters, compact, appendTo, String.toList_push, toList_appendItems]
  rfl

theorem characters_object (fields : List (String × Json)) :
    (object fields).characters =
      '{' :: ([','].intercalate (fields.map fieldCharacters) ++ ['}']) := by
  rw [characters, compact, appendTo, String.toList_push, toList_appendFields]
  rfl

/-- No number stands in the value. -/
inductive Numberless : Json → Prop where
  | null : Numberless null
  | bool (value : Bool) : Numberless (bool value)
  | string (value : String) : Numberless (string value)
  | list {items : List Json} (h : ∀ item ∈ items, Numberless item) : Numberless (list items)
  | object {fields : List (String × Json)} (h : ∀ field ∈ fields, Numberless field.2) :
      Numberless (object fields)

@[simp] theorem numberless_string (value : String) : (Json.string value).Numberless :=
  .string value

@[simp] theorem numberless_list_iff {items : List Json} :
    (Json.list items).Numberless ↔ ∀ item ∈ items, item.Numberless :=
  ⟨fun h => by cases h; assumption, .list⟩

@[simp] theorem numberless_object_iff {fields : List (String × Json)} :
    (Json.object fields).Numberless ↔ ∀ field ∈ fields, field.2.Numberless :=
  ⟨fun h => by cases h; assumption, .object⟩

@[simp] theorem numberless_strings (values : List String) : (strings values).Numberless := by
  simp [strings]

/-- A value begins with no space and closes no list. -/
theorem Numberless.opening {json : Json} (h : json.Numberless) :
    ∃ c more, json.characters = c :: more ∧ isSpace c = false ∧ c ≠ ']' := by
  cases h with
  | null => exact ⟨'n', _, characters_null, rfl, by decide⟩
  | bool value =>
    cases value with
    | false => exact ⟨'f', _, characters_bool false, rfl, by decide⟩
    | true => exact ⟨'t', _, characters_bool true, rfl, by decide⟩
  | string value => exact ⟨'"', _, characters_string value, rfl, by decide⟩
  | list => exact ⟨'[', _, characters_list _, rfl, by decide⟩
  | object => exact ⟨'{', _, characters_object _, rfl, by decide⟩

theorem skipSpace_cons {c : Char} (h : isSpace c = false) (text : List Char) :
    skipSpace (c :: text) = c :: text :=
  List.dropWhile_cons_of_neg (by simp [h])

theorem Numberless.skipSpace_eq {json : Json} (h : json.Numberless) (rest : List Char) :
    skipSpace (json.characters ++ rest) = json.characters ++ rest := by
  obtain ⟨c, more, opening, space, -⟩ := h.opening
  rw [opening]
  exact skipSpace_cons space _

variable {json : Json} {items : List Json} {fields : List (String × Json)}

/-- The value is read from its characters, whatever follows them. -/
def ReadBack (json : Json) : Prop :=
  ∀ fuel rest, 2 * json.characters.length ≤ fuel →
    readValue fuel (json.characters ++ rest) = some (json, rest)

theorem readBack_word (ne : json.characters ≠ [])
    (read : ∀ fuel rest, readValue (fuel + 1) (json.characters ++ rest) = some (json, rest)) :
    json.ReadBack := by
  intro fuel rest enough
  have long := List.length_pos_iff.mpr ne
  obtain ⟨fuel, rfl⟩ := Nat.exists_eq_add_one_of_ne_zero (show fuel ≠ 0 by omega)
  exact read fuel rest

theorem readBack_string (value : String) : (string value).ReadBack := by
  refine readBack_word (by simp [characters_string, quoted]) fun fuel rest => ?_
  obtain ⟨behind, eq, read⟩ := readQuoted_quoted value rest
  rw [characters_string, eq, readValue, read, Option.map_some]

/-! Lists and objects. Both are read part by part, with the parts so far in reverse. -/

/-- One part is read up to the comma or the closing bracket behind it. -/
structure PartRead {α : Type} (read : Nat → List α → List Char → Option (Json × List Char))
    (written : α → List Char) (close : Char) (whole : List α → Json) (part : α) : Prop where
  comma : ∀ fuel before rest, 2 * (written part).length ≤ fuel →
    read (fuel + 1) before (written part ++ ',' :: rest) = read fuel (part :: before) rest
  close : ∀ fuel before rest, 2 * (written part).length ≤ fuel →
    read (fuel + 1) before (written part ++ close :: rest) =
      some (whole (part :: before).reverse, rest)

/-- Parts with commas between them are read one by one. -/
theorem read_join {α : Type} {read : Nat → List α → List Char → Option (Json × List Char)}
    {written : α → List Char} {close : Char} {whole : List α → Json} {parts : List α}
    (ne : parts ≠ []) (each : ∀ part ∈ parts, PartRead read written close whole part)
    (fuel : Nat) (before : List α) (rest : List Char)
    (enough : 2 * ([','].intercalate (parts.map written)).length < fuel) :
    read fuel before ([','].intercalate (parts.map written) ++ close :: rest) =
      some (whole (before.reverse ++ parts), rest) := by
  induction parts generalizing fuel before with
  | nil => exact absurd rfl ne
  | cons part parts ih =>
    obtain ⟨first, each⟩ := List.forall_mem_cons.mp each
    obtain ⟨fuel, rfl⟩ := Nat.exists_eq_add_one_of_ne_zero (Nat.ne_zero_of_lt enough)
    cases parts with
    | nil =>
      rw [List.map_singleton, List.intercalate_singleton] at *
      rw [first.close fuel before rest (by omega), List.reverse_cons]
    | cons part' parts =>
      rw [List.map_cons, List.map_cons, List.intercalate_cons_cons, ← List.map_cons] at *
      simp only [List.length_append, List.length_singleton] at enough
      rw [List.append_assoc, List.append_assoc, List.singleton_append,
        first.comma fuel before _ (by omega),
        ih (List.cons_ne_nil part' parts) each _ _ (by omega), List.reverse_cons,
        List.append_assoc, List.singleton_append]

/-- A list or an object that is not empty is read, if its opening bracket leads to its parts. -/
theorem readBack_parts {α : Type} {read : Nat → List α → List Char → Option (Json × List Char)}
    {written : α → List Char} {opening close : Char} {whole : List α → Json} {parts : List α}
    (ne : parts ≠ []) (each : ∀ part ∈ parts, PartRead read written close whole part)
    (shape : (whole parts).characters =
      opening :: ([','].intercalate (parts.map written) ++ [close]))
    (enter : ∀ fuel rest,
      readValue (fuel + 1) (opening :: ([','].intercalate (parts.map written) ++ rest)) =
        read fuel [] ([','].intercalate (parts.map written) ++ rest)) :
    (whole parts).ReadBack := by
  intro fuel rest enough
  rw [shape] at *
  simp only [List.length_cons, List.length_append, List.length_nil] at enough
  obtain ⟨fuel, rfl⟩ := Nat.exists_eq_add_one_of_ne_zero (show fuel ≠ 0 by omega)
  rw [List.cons_append, List.append_assoc, List.singleton_append, enter,
    read_join ne each fuel [] rest (by omega), List.reverse_nil, List.nil_append]

theorem partRead_item (numberless : json.Numberless) (readBack : json.ReadBack) :
    PartRead readItems characters ']' .list json where
  comma fuel before rest enough := by
    rw [readItems, numberless.skipSpace_eq, readBack fuel _ enough]
    rfl
  close fuel before rest enough := by
    rw [readItems, numberless.skipSpace_eq, readBack fuel _ enough]
    rfl

/-- A field is its name up to the closing quote, a colon and its value. -/
theorem partRead_field {name : String} (numberless : json.Numberless) (readBack : json.ReadBack) :
    PartRead readFields fieldCharacters '}' .object (name, json) := by
  have start (rest : List Char) : ∃ behind,
      skipSpace (fieldCharacters (name, json) ++ rest) = '"' :: behind ∧
        readQuoted none [] behind = some (name, ':' :: (json.characters ++ rest)) := by
    obtain ⟨behind, eq, named⟩ := readQuoted_quoted name (':' :: (json.characters ++ rest))
    refine ⟨behind, ?_, named⟩
    rw [fieldCharacters, List.append_assoc, List.cons_append, eq]
    rfl
  have value {fuel : Nat} (rest : List Char)
      (enough : 2 * (fieldCharacters (name, json)).length ≤ fuel) :
      readValue fuel (skipSpace (json.characters ++ rest)) = some (json, rest) := by
    simp only [fieldCharacters, List.length_append, List.length_cons] at enough
    rw [numberless.skipSpace_eq, readBack fuel rest (by omega)]
  have colon (rest : List Char) : skipSpace (':' :: rest) = ':' :: rest := rfl
  constructor
  · intro fuel before rest enough
    obtain ⟨behind, opening, named⟩ := start (',' :: rest)
    rw [readFields, opening]
    simp only [named, colon, value _ enough]
    rfl
  · intro fuel before rest enough
    obtain ⟨behind, opening, named⟩ := start ('}' :: rest)
    rw [readFields, opening]
    simp only [named, colon, value _ enough]
    rfl

theorem exists_intercalate_eq (sep piece : List Char) (pieces : List (List Char)) :
    ∃ more, sep.intercalate (piece :: pieces) = piece ++ more := by
  cases pieces with
  | nil => exact ⟨[], by simp⟩
  | cons piece' pieces =>
    exact ⟨_, (List.intercalate_cons_cons ..).trans (List.append_assoc ..)⟩

theorem readValue_list {fuel : Nat} {c : Char} {rest : List Char} (space : isSpace c = false)
    (filled : c ≠ ']') :
    readValue (fuel + 1) ('[' :: c :: rest) = readItems fuel [] (c :: rest) := by
  rw [readValue, skipSpace_cons space]
  split
  · next eq => exact absurd (List.cons.inj eq).1 filled
  · rfl

theorem readBack_list (numberless : ∀ item ∈ items, item.Numberless)
    (readBack : ∀ item ∈ items, item.ReadBack) : (list items).ReadBack := by
  cases items with
  | nil => exact readBack_word (by decide) fun _ _ => rfl
  | cons item items =>
    refine readBack_parts (List.cons_ne_nil item items)
      (fun item mem => partRead_item (numberless item mem) (readBack item mem))
      (characters_list _) fun fuel rest => ?_
    obtain ⟨c, own, opening, space, filled⟩ := (numberless item List.mem_cons_self).opening
    obtain ⟨more, eq⟩ := exists_intercalate_eq [','] item.characters (items.map characters)
    rw [List.map_cons, eq, opening]
    exact readValue_list space filled

theorem readBack_object (numberless : ∀ field ∈ fields, field.2.Numberless)
    (readBack : ∀ field ∈ fields, field.2.ReadBack) : (object fields).ReadBack := by
  cases fields with
  | nil => exact readBack_word (by decide) fun _ _ => rfl
  | cons field fields =>
    refine readBack_parts (List.cons_ne_nil field fields)
      (fun field mem => partRead_field (numberless field mem) (readBack field mem))
      (characters_object _) fun fuel rest => ?_
    obtain ⟨more, eq⟩ := exists_intercalate_eq [','] (fieldCharacters field)
      (fields.map fieldCharacters)
    rw [List.map_cons, eq, fieldCharacters, quoted]
    rfl

/-! ## Every value -/

theorem Numberless.readBack (h : json.Numberless) : json.ReadBack := by
  induction h with
  | null => exact readBack_word (by decide) fun _ _ => rfl
  | bool value =>
    cases value with
    | false => exact readBack_word (by decide) fun _ _ => rfl
    | true => exact readBack_word (by decide) fun _ _ => rfl
  | string value => exact readBack_string value
  | list numberless ih => exact readBack_list numberless ih
  | object numberless ih => exact readBack_object numberless ih

/-- What is printed is read as what it was printed from. -/
theorem Numberless.ofText?_compact (h : json.Numberless) : ofText? json.compact = some json := by
  have read := h.readBack (2 * json.compact.toList.length + 2) [] (by simp [characters])
  have start := h.skipSpace_eq []
  rw [List.append_nil] at read start
  unfold ofText?
  simp only [← characters.eq_1] at read ⊢
  rw [start, read]
  rfl

/-! ## No control characters -/

theorem visible_of_mem_quoted {text : String} {c : Char} (h : c ∈ quoted text) :
    32 ≤ c.toNat := by
  obtain rfl | ⟨d, -, mem⟩ | rfl : c = '"' ∨ (∃ d ∈ text.toList, c ∈ (escaped d).toList) ∨
      c = '"' := by simpa [quoted] using h
  · decide
  · exact visible_of_mem_escaped mem
  · decide

/-- What stands between an opening and a closing bracket, with commas in it. -/
theorem visible_of_mem_join {opening closing c : Char} {parts : List (List Char)}
    (brackets : 32 ≤ opening.toNat ∧ 32 ≤ closing.toNat)
    (each : ∀ part ∈ parts, ∀ c ∈ part, 32 ≤ c.toNat)
    (h : c ∈ opening :: ([','].intercalate parts ++ [closing])) : 32 ≤ c.toNat := by
  obtain rfl | mem | rfl : c = opening ∨ c ∈ [','].intercalate parts ∨ c = closing := by
    simpa using h
  · exact brackets.1
  · obtain mem | ⟨part, mem, inside⟩ := Text.mem_intercalate mem
    · obtain rfl := List.mem_singleton.mp mem
      decide
    · exact each part mem c inside
  · exact brackets.2

/-- A printed value stands on one line. -/
theorem Numberless.visible (h : json.Numberless) : ∀ c ∈ json.characters, 32 ≤ c.toNat := by
  induction h with
  | null => simp [characters_null]
  | bool value =>
    rw [characters_bool]
    cases value <;> simp
  | string value =>
    rw [characters_string]
    exact fun c => visible_of_mem_quoted
  | list _ ih =>
    rw [characters_list]
    exact fun c => visible_of_mem_join (by decide) (List.forall_mem_map.mpr ih)
  | object _ ih =>
    rw [characters_object]
    refine fun c => visible_of_mem_join (by decide) (List.forall_mem_map.mpr ?_)
    intro field mem c inside
    obtain inside | rfl | inside : c ∈ quoted field.1 ∨ c = ':' ∨ c ∈ field.2.characters := by
      simpa [fieldCharacters] using inside
    · exact visible_of_mem_quoted inside
    · decide
    · exact ih field mem c inside

theorem Numberless.no_line_feed (h : json.Numberless) : '\n' ∉ json.compact.toList :=
  fun mem => absurd (h.visible '\n' mem) (by decide)

end GrammarFixpoint.Json
