import GrammarFixpoint.Json.Tag

/-! Normal forms of JSON values. A value is decoded field by field, in any order and with
other fields between; its normal form is the object of just the fields that count, in the
order of their declaration. What a decoder accepts can then be said without it: the values
whose normal form is an encoding. A record is taken apart from the front, one field of the
table and of the encoding at a time, which is why a name stands in a table only once. -/

namespace GrammarFixpoint.Json

/-- How the value of a field is written, if at all; `some` writes it as it is. -/
abbrev Form := Json → Option Json

def pickField (json : Json) (field : String × Form) : Option (String × Json) :=
  ((json.field? field.1).bind field.2).map (field.1, ·)

/-- The fields in the order listed, each in its form; what is not listed is left out. -/
def pick (fields : List (String × Form)) (json : Json) : Json :=
  .object (fields.filterMap json.pickField)

/-- The tag comes first and decides which other fields are picked. -/
def pickByTag (tag : String) (kinds : List (String × List (String × Form))) (json : Json) : Json :=
  match (json.stringField? tag).bind fun kind => List.lookup kind kinds with
  | none => json
  | some fields => json.pick ((tag, some) :: fields)

/-- A value is decoded to what its normal form encodes, and not at all where that form is
no encoding. -/
def ReadAs {α : Type} (encode : α → Json) (decode : Json → Option α) (normal : Json → Json)
    (json : Json) : Prop :=
  ∀ x, decode json = some x ↔ normal json = encode x

/-- The field is a string, if it is there at all. -/
def Spelled (json : Json) (name : String) : Prop :=
  ∀ value, json.field? name = some value → ∃ text, value = .string text

variable {json : Json}

/-! ## Parts -/

theorem reads_string : ReadAs string string? id json := by
  intro text
  cases json <;> simp [string?]

/-- Items that are decoded one by one. -/
theorem mapM_eq_some_iff {α β γ : Type} {decode : α → Option β} {normal : α → γ}
    {encode : β → γ} {items : List α} {xs : List β}
    (each : ∀ item ∈ items, ∀ x, decode item = some x ↔ normal item = encode x) :
    items.mapM decode = some xs ↔ items.map normal = xs.map encode := by
  induction items generalizing xs with
  | nil => cases xs <;> simp
  | cons item items ih =>
    obtain ⟨first, each⟩ := List.forall_mem_cons.mp each
    cases xs with
    | nil => simp [Option.bind_eq_some_iff]
    | cons x xs => simp [Option.bind_eq_some_iff, ← first, ← ih each]

theorem reads_strings : ReadAs strings strings? id json := by
  intro values
  cases json with
  | list items =>
    have each : ∀ item ∈ items, ∀ value, item.string? = some value ↔ id item = string value :=
      fun _ _ => reads_string
    simpa [strings?, list?, strings] using mapM_eq_some_iff each
  | _ => simp [strings?, list?, strings]

/-- A field that must be there, read against the form it is written in. -/
theorem field_reads {α : Type} {encode : α → Json} {decode : Json → Option α}
    {normal : Json → Json} {name : String} {x : α}
    (reads : ∀ value, json.field? name = some value → ReadAs encode decode normal value) :
    (json.field? name).bind decode = some x ↔
      (json.field? name).bind (some ∘ normal) = some (encode x) := by
  cases own : json.field? name with
  | none => simp
  | some value => simpa using reads value own x

/-- A field that is kept as it is. -/
theorem field_kept {α : Type} {encode : α → Json} {decode : Json → Option α} {name : String}
    {x : α} (reads : ∀ value, ReadAs encode decode id value) :
    (json.field? name).bind decode = some x ↔ (json.field? name).bind some = some (encode x) :=
  field_reads fun value _ => reads value

theorem stringField?_kept {name value : String} :
    json.stringField? name = some value ↔ (json.field? name).bind some = some (string value) :=
  field_kept fun _ => reads_string

/-! ## Records -/

theorem pick_nil : json.pick [] = .object [] := rfl

theorem pick_cons_iff {name : String} {form : Form} {fields : List (String × Form)} {value : Json}
    {entries : List (String × Json)} (fresh : name ∉ fields.map Prod.fst) :
    json.pick ((name, form) :: fields) = .object ((name, value) :: entries) ↔
      (json.field? name).bind form = some value ∧ json.pick fields = .object entries := by
  have absent : fields.filterMap json.pickField ≠ (name, value) :: entries := by
    intro eq
    obtain ⟨field, mem, picked⟩ := List.mem_filterMap.mp (eq ▸ List.mem_cons_self)
    obtain ⟨_, -, same⟩ := Option.map_eq_some_iff.mp picked
    exact fresh (List.mem_map.mpr ⟨field, mem, congrArg Prod.fst same⟩)
  rw [pick, List.filterMap_cons]
  cases own : (json.field? name).bind form with
  | none => simp [pickField, own, absent]
  | some other => simp [pickField, own, pick]

/-! ## Tags -/

theorem field?_of_stringField? {name value : String} (h : json.stringField? name = some value) :
    json.field? name = some (string value) := by
  simpa using stringField?_kept.mp h

theorem pickByTag_eq_iff {tag kind : String} {kinds : List (String × List (String × Form))}
    {fields : List (String × Form)} {entries : List (String × Json)}
    (known : List.lookup kind kinds = some fields) :
    json.pickByTag tag kinds = .object ((tag, string kind) :: entries) ↔
      json.stringField? tag = some kind ∧ json.pick fields = .object entries := by
  rw [pickByTag]
  cases own : (json.stringField? tag).bind fun kind => List.lookup kind kinds with
  | none =>
    have unknown : json.stringField? tag ≠ some kind := by
      intro named
      rw [named, Option.bind_some, known] at own
      contradiction
    have other : json ≠ .object ((tag, string kind) :: entries) := by
      intro eq
      exact unknown (by simp [eq, stringField?, field?, object?, string?])
    simp [unknown, other]
  | some picked =>
    obtain ⟨kind', named, known'⟩ := Option.bind_eq_some_iff.mp own
    simp only [pick, List.filterMap_cons, pickField, field?_of_stringField? named, named,
      Option.bind_some, Option.map_some, object.injEq, List.cons.injEq, Prod.mk.injEq,
      string.injEq, true_and, Option.some.injEq]
    refine and_congr_right fun same => ?_
    obtain rfl : picked = fields := by simpa [same, known] using known'.symm
    rfl

theorem find?_beq_eq_some_iff {tags : List String} {text tag : String} :
    tags.find? (· == text) = some tag ↔ text = tag ∧ tag ∈ tags := by
  constructor
  · intro found
    have same := List.find?_some (p := (· == text)) found
    exact ⟨(beq_iff_eq.mp same).symm, List.mem_of_find?_eq_some found⟩
  · intro ⟨same, mem⟩
    cases found : tags.find? (· == text) with
    | none => exact absurd (beq_iff_eq.mpr same.symm) (List.find?_eq_none.mp found tag mem)
    | some other =>
      have same' := List.find?_some (p := (· == text)) found
      rw [beq_iff_eq.mp same', same]

/-- Of the tags known, the one that is spelled out counts. -/
theorem tag?_eq_some_iff {enclosure : Enclosure} {name tag : String} {tags : List String}
    (spelled : enclosure = .tagged → json.Spelled name) :
    json.tag? enclosure tags name = some tag ↔ json.stringField? name = some tag ∧ tag ∈ tags := by
  cases own : json.field? name with
  | none => cases enclosure <;> simp [tag?, stringField?, own]
  | some value =>
    cases value with
    | string text =>
      have found : tags.find? (· == text) = some tag ↔ text = tag ∧ tag ∈ tags :=
        find?_beq_eq_some_iff
      cases enclosure <;> simpa [tag?, stringField?, own, string?] using found
    | _ =>
      cases enclosure with
      | untagged => simp [tag?, stringField?, own, string?]
      | tagged =>
        -- A number would name the tag by its place.
        obtain ⟨text, eq⟩ := spelled rfl _ own
        contradiction

example : (object [("kind", nat 1)]).tag? .tagged ["set", "mapping"] "kind" = some "mapping" := by
  decide

end GrammarFixpoint.Json
