import GrammarFixpoint.Json.Boundary
import GrammarFixpoint.Proofs.JsonText
import GrammarFixpoint.Proofs.NormalForm

/-! The values that leave the library survive the way out and back, and a value that comes
back in settles after one turn. Each kind of value has its table of fields; decoding asks
for exactly what the table lists, which is shown once for the decoder of each kind, and the
tables of the parts then make up those of the whole. Phases and tags have other spellings
than the one they are written in, and those a turn does change. -/

namespace GrammarFixpoint

open Json

/-! ## Normal forms -/

/-- A list that says nothing is not written. -/
def unlessEmpty : Form
  | .list [] => none
  | json => some json

def Step.normal : Json → Json :=
  pick
    [("phase", some), ("iteration", some), ("variables", some), ("explanation", some),
     ("newVariables", unlessEmpty)]

def Trace.normal : Json → Json
  | .list items => .list (items.map Step.normal)
  | json => json

def Snapshot.normal : Json → Json :=
  pick [("start", some), ("variables", some), ("terminals", some), ("productions", some)]

def Outcome.normal : Json → Json :=
  pickByTag "kind"
    [("set", [("title", some), ("values", some), ("steps", some ∘ Trace.normal)]),
     ("mapping", [("title", some), ("values", some), ("steps", some ∘ Trace.normal)]),
     ("grammar",
       [("title", some), ("value", some ∘ Snapshot.normal), ("steps", some ∘ Trace.normal)])]

/-- The fields of a success stand beside its tag. -/
def Response.normal (fields : List (String × Form)) : Json → Json :=
  pickByTag "status" [("success", fields), ("error", [("message", some)])]

def Loaded.form : List (String × Form) := [("message", some), ("data", some ∘ Snapshot.normal)]

def Computed.form : List (String × Form) := [("result", some ∘ Outcome.normal)]

/-! ## Phases and tags as strings -/

def Trace.Spelled (json : Json) : Prop :=
  ∀ items, json = .list items → ∀ item ∈ items, item.Spelled "phase"

def Outcome.Spelled (json : Json) : Prop :=
  json.Spelled "kind" ∧ ∀ steps, json.field? "steps" = some steps → Trace.Spelled steps

def Computed.Spelled (json : Json) : Prop :=
  ∀ result, json.field? "result" = some result → Outcome.Spelled result

variable {enclosure : Enclosure} {json : Json}

/-! ## Steps -/

theorem reads_namesByName : ReadAs namesByName namesByName? id json := by
  intro entries
  cases json with
  | object fields =>
    have each : ∀ field ∈ fields, ∀ entry : String × List String,
        field.2.strings?.map (field.1, ·) = some entry ↔ id field = (entry.1, strings entry.2) := by
      intro field mem entry
      have own : field.2.strings? = some entry.2 ↔ field.2 = strings entry.2 := reads_strings _
      simp only [Option.map_eq_some_iff, id, Prod.ext_iff, ← own]
      grind
    simpa [namesByName?, object?, namesByName] using mapM_eq_some_iff each
  | _ => simp [namesByName?, object?, namesByName]

theorem Phase.reads (name : String) :
    ReadAs Phase.toJson (Phase.ofJson? enclosure) id (.string name) := by
  intro phase
  simp only [Phase.ofJson?, name?, Option.bind_some, Phase.toJson, id, string.injEq]
  constructor
  · intro found
    have same := List.find?_some (p := fun phase : Phase => phase.name == name) found
    exact (beq_iff_eq.mp same).symm
  · rintro rfl
    cases phase <;> rfl

namespace Step

theorem ofJson?_eq_some_iff {step : Step} :
    ofJson? enclosure json = some step ↔
      (json.field? "phase").bind (Phase.ofJson? enclosure) = some step.phase ∧
      json.stringField? "iteration" = some step.iteration ∧
      json.stringField? "variables" = some step.admitted ∧
      json.stringField? "explanation" = some step.explanation ∧
      (match json.field? "newVariables" with
        | none => some []
        | some names => names.strings?) = some step.newVariables := by
  obtain ⟨phase, iteration, admitted, explanation, newVariables⟩ := step
  cases own : json.field? "newVariables" with
  | none =>
    simp only [ofJson?, own, Option.bind_eq_bind, Option.bind_eq_some_iff, Option.pure_def,
      Option.bind_some, Option.some.injEq, mk.injEq]
    grind
  | some names =>
    simp only [ofJson?, own, Option.bind_eq_bind, Option.bind_eq_some_iff, Option.pure_def,
      Option.some.injEq, mk.injEq]
    grind

/-- The field for new variables, which is written only where there are some. -/
def added : List String → List (String × Json)
  | [] => []
  | names => [("newVariables", strings names)]

theorem toJson_eq (step : Step) :
    step.toJson = .object
      (("phase", step.phase.toJson) :: ("iteration", .string step.iteration) ::
        ("variables", .string step.admitted) :: ("explanation", .string step.explanation) ::
        added step.newVariables) := by
  obtain ⟨phase, iteration, admitted, explanation, newVariables⟩ := step
  cases newVariables <;> rfl

/-- Without the field there are no new variables. -/
theorem newVariables_reads (names : List String) :
    (match json.field? "newVariables" with
      | none => some []
      | some value => value.strings?) = some names ↔
    json.pick [("newVariables", unlessEmpty)] = .object (added names) := by
  cases own : json.field? "newVariables" with
  | none => cases names <;> simp [pick, pickField, own, added]
  | some value =>
    have picked : json.pick [("newVariables", unlessEmpty)] =
        .object ((unlessEmpty value).toList.map ("newVariables", ·)) := by
      cases form : unlessEmpty value <;> simp [pick, pickField, own, form]
    rw [picked]
    refine (reads_strings names).trans ?_
    unfold unlessEmpty
    split
    · cases names <;> simp [strings, added]
    · next other =>
      have filled : value ≠ list [] := other
      cases names <;> simp [strings, added, filled]

theorem reads (spelled : json.Spelled "phase") : ReadAs toJson (ofJson? enclosure) normal json := by
  intro step
  have phase : (json.field? "phase").bind (Phase.ofJson? enclosure) = some step.phase ↔
      (json.field? "phase").bind some = some step.phase.toJson := by
    apply field_reads
    intro value eq
    obtain ⟨name, rfl⟩ := spelled value eq
    exact Phase.reads name
  rw [ofJson?_eq_some_iff, normal, toJson_eq, phase, newVariables_reads]
  simp (disch := decide) only [pick_cons_iff, stringField?_kept]

end Step

theorem Trace.reads (spelled : Trace.Spelled json) :
    ReadAs Trace.toJson (Trace.ofJson? enclosure) Trace.normal json := by
  intro trace
  cases json with
  | list items =>
    have each : ∀ item ∈ items, ∀ step, Step.ofJson? enclosure item = some step ↔
        Step.normal item = step.toJson := fun item mem => Step.reads (spelled items rfl item mem)
    simpa [ofJson?, list?, normal, toJson] using mapM_eq_some_iff each
  | _ => simp [ofJson?, list?, normal, toJson]

/-! ## Grammars and outcomes -/

theorem Snapshot.ofJson?_eq_some_iff {snapshot : Snapshot} :
    Snapshot.ofJson? json = some snapshot ↔
      json.stringField? "start" = some snapshot.start ∧
      (json.field? "variables").bind strings? = some snapshot.variableNames ∧
      (json.field? "terminals").bind strings? = some snapshot.terminalNames ∧
      (json.field? "productions").bind namesByName? = some snapshot.productions := by
  obtain ⟨start, variableNames, terminalNames, productions⟩ := snapshot
  simp only [ofJson?, Option.bind_eq_bind, Option.bind_eq_some_iff, Option.pure_def,
    Option.some.injEq, mk.injEq]
  grind

theorem Snapshot.reads : ReadAs Snapshot.toJson Snapshot.ofJson? Snapshot.normal json := by
  intro snapshot
  rw [ofJson?_eq_some_iff, normal, toJson, stringField?_kept, field_kept fun _ => reads_strings,
    field_kept fun _ => reads_strings, field_kept fun _ => reads_namesByName]
  simp (disch := decide) only [pick_cons_iff, pick_nil, and_true]

namespace Outcome

theorem ofJson?_eq_some_iff {outcome : Outcome} (spelled : json.Spelled "kind") :
    ofJson? enclosure json = some outcome ↔
      match outcome with
      | .set title values steps =>
        json.stringField? "kind" = some "set" ∧ json.stringField? "title" = some title ∧
          (json.field? "values").bind strings? = some values ∧
          (json.field? "steps").bind (Trace.ofJson? .tagged) = some steps
      | .mapping title values steps =>
        json.stringField? "kind" = some "mapping" ∧ json.stringField? "title" = some title ∧
          (json.field? "values").bind namesByName? = some values ∧
          (json.field? "steps").bind (Trace.ofJson? .tagged) = some steps
      | .grammar title value steps =>
        json.stringField? "kind" = some "grammar" ∧ json.stringField? "title" = some title ∧
          (json.field? "value").bind Snapshot.ofJson? = some value ∧
          (json.field? "steps").bind (Trace.ofJson? .tagged) = some steps := by
  have tagged : ∀ kind ∈ tags, json.stringField? "kind" = some kind ↔
      json.tag? enclosure tags "kind" = some kind :=
    fun kind mem => ((tag?_eq_some_iff fun _ => spelled).trans (and_iff_left mem)).symm
  have set := tagged "set" (by decide)
  have mapping := tagged "mapping" (by decide)
  have grammar := tagged "grammar" (by decide)
  cases own : json.tag? enclosure tags "kind" with
  | none => cases outcome <;> simp [ofJson?, own, set, mapping, grammar]
  | some kind =>
    have mem := ((tag?_eq_some_iff fun _ => spelled).mp own).2
    simp only [tags, List.mem_cons, List.not_mem_nil, or_false] at mem
    obtain rfl | rfl | rfl := mem
    -- The tag found against the kind asked for: off the diagonal neither side holds.
    all_goals
      cases outcome <;>
        simp only [ofJson?, own, set, mapping, grammar, Option.bind_eq_bind,
          Option.bind_eq_some_iff, Option.pure_def, Option.bind_some, Option.some.injEq] <;>
        grind

theorem reads (spelled : Outcome.Spelled json) :
    ReadAs toJson (ofJson? enclosure) normal json := by
  intro outcome
  have steps {trace : Trace} : (json.field? "steps").bind (Trace.ofJson? .tagged) = some trace ↔
      (json.field? "steps").bind (some ∘ Trace.normal) = some trace.toJson :=
    field_reads fun value eq => Trace.reads (spelled.2 value eq)
  rw [ofJson?_eq_some_iff spelled.1, normal]
  cases outcome with
  | set title values trace =>
    rw [toJson, pickByTag_eq_iff rfl]
    simp (disch := decide) only [steps, field_kept fun _ => reads_strings, pick_cons_iff,
      pick_nil, and_true, stringField?_kept]
  | mapping title values trace =>
    rw [toJson, pickByTag_eq_iff rfl]
    simp (disch := decide) only [steps, field_kept fun _ => reads_namesByName, pick_cons_iff,
      pick_nil, and_true, stringField?_kept]
  | grammar title value trace =>
    rw [toJson, pickByTag_eq_iff rfl]
    simp (disch := decide) only [steps, field_reads fun _ _ => Snapshot.reads, pick_cons_iff,
      pick_nil, and_true, stringField?_kept]

end Outcome

/-! ## Responses -/

theorem ofTagged?_eq_some_iff {α : Type} {payload? : Json → Option α} {response : Response α} :
    ofTagged? payload? json = some response ↔
      match response with
      | .success payload =>
        json.stringField? "status" = some "success" ∧ payload? json = some payload
      | .error message =>
        json.stringField? "status" = some "error" ∧ json.stringField? "message" = some message := by
  have tagged : ∀ kind ∈ ["success", "error"], json.stringField? "status" = some kind ↔
      json.tag? .untagged ["success", "error"] "status" = some kind :=
    fun kind mem => ((tag?_eq_some_iff (by simp)).trans (and_iff_left mem)).symm
  have success := tagged "success" (by decide)
  have error := tagged "error" (by decide)
  unfold ofTagged?
  cases own : json.tag? .untagged ["success", "error"] "status" with
  | none => cases response <;> simp [own, success, error]
  | some kind =>
    have mem := ((tag?_eq_some_iff (by simp)).mp own).2
    simp only [List.mem_cons, List.not_mem_nil, or_false] at mem
    obtain rfl | rfl := mem
    · cases response <;> simp [own, success, error]
    · cases response <;> simp [own, success, error]

/-- The table of a success is that of its payload. -/
theorem Response.reads {α : Type} {payload? : Json → Option α} {encode : Response α → Json}
    {fields : List (String × Form)} {entries : α → List (String × Json)}
    (success : ∀ payload, encode (.success payload) = taggedSuccess (entries payload))
    (error : ∀ message, encode (.error message) = taggedError message)
    (own : ∀ payload, payload? json = some payload ↔
      json.pick fields = .object (entries payload)) :
    ReadAs encode (ofTagged? payload?) (Response.normal fields) json := by
  intro response
  rw [ofTagged?_eq_some_iff, normal]
  cases response with
  | success payload => rw [success, taggedSuccess, pickByTag_eq_iff rfl, ← own]
  | error message =>
    rw [error, taggedError, pickByTag_eq_iff rfl, pick_cons_iff List.not_mem_nil, pick_nil,
      eq_self, and_true, ← stringField?_kept]

theorem Response.loaded_reads :
    ReadAs loadedToJson loadedOfJson? (Response.normal Loaded.form) json := by
  apply Response.reads (fun _ => rfl) (fun _ => rfl)
  intro ⟨message, data⟩
  have fields : Loaded.ofJson? json = some ⟨message, data⟩ ↔
      json.stringField? "message" = some message ∧
        (json.field? "data").bind Snapshot.ofJson? = some data := by
    simp only [Loaded.ofJson?, Option.bind_eq_bind, Option.bind_eq_some_iff, Option.pure_def,
      Option.some.injEq, Loaded.mk.injEq]
    grind
  rw [fields, field_reads fun _ _ => Snapshot.reads, Loaded.form]
  simp (disch := decide) only [pick_cons_iff, pick_nil, and_true, stringField?_kept]

theorem Response.computed_reads (spelled : Computed.Spelled json) :
    ReadAs computedToJson computedOfJson? (Response.normal Computed.form) json := by
  apply Response.reads (fun _ => rfl) (fun _ => rfl)
  intro ⟨result⟩
  have fields : Computed.ofJson? json = some ⟨result⟩ ↔
      (json.field? "result").bind (Outcome.ofJson? .tagged) = some result := by
    simp only [Computed.ofJson?, Option.bind_eq_bind, Option.bind_eq_some_iff, Option.pure_def,
      Option.some.injEq, Computed.mk.injEq]
    grind
  rw [fields, field_reads fun value eq => Outcome.reads (spelled value eq), Computed.form]
  simp (disch := decide) only [pick_cons_iff, pick_nil, and_true]

/-! ## Encoded values -/

theorem Step.numberless (step : Step) : step.toJson.Numberless := by
  obtain ⟨phase, iteration, admitted, explanation, newVariables⟩ := step
  cases newVariables <;> simp [toJson, Phase.toJson]

theorem Trace.numberless (trace : Trace) : trace.toJson.Numberless := by
  simp [toJson, Step.numberless]

theorem numberless_namesByName (entries : List (String × List String)) :
    (namesByName entries).Numberless := by
  rw [namesByName, numberless_object_iff]
  exact List.forall_mem_map.mpr fun entry _ => numberless_strings entry.2

theorem Snapshot.numberless (snapshot : Snapshot) : snapshot.toJson.Numberless := by
  simp [toJson, numberless_namesByName]

theorem Outcome.numberless (outcome : Outcome) : outcome.toJson.Numberless := by
  cases outcome <;>
    simp [toJson, Trace.numberless, Snapshot.numberless, numberless_namesByName]

theorem Response.loaded_numberless (response : Response Loaded) :
    response.loadedToJson.Numberless := by
  cases response <;> simp [loadedToJson, taggedSuccess, taggedError, Snapshot.numberless]

theorem Response.computed_numberless (response : Response Computed) :
    response.computedToJson.Numberless := by
  cases response <;> simp [computedToJson, taggedSuccess, taggedError, Outcome.numberless]

theorem spelled_of_field? {name text : String} (h : json.field? name = some (.string text)) :
    json.Spelled name :=
  fun _ eq => ⟨text, Option.some.inj (eq.symm.trans h)⟩

theorem Step.spelled (step : Step) : step.toJson.Spelled "phase" := by
  have named : step.toJson.field? "phase" = some (.string step.phase.name) := rfl
  exact spelled_of_field? named

theorem Trace.spelled (trace : Trace) : Trace.Spelled trace.toJson := by
  intro items eq item mem
  obtain rfl : trace.map Step.toJson = items := by simpa [toJson] using eq
  obtain ⟨step, -, rfl⟩ := List.mem_map.mp mem
  exact step.spelled

theorem Outcome.spelled (outcome : Outcome) : Outcome.Spelled outcome.toJson := by
  have steps : outcome.toJson.field? "steps" = some (Trace.toJson outcome.steps) := by
    cases outcome <;> rfl
  refine ⟨?_, fun value eq => ?_⟩
  · cases outcome with
    | set => exact spelled_of_field? rfl
    | mapping => exact spelled_of_field? rfl
    | grammar => exact spelled_of_field? rfl
  · obtain rfl : Trace.toJson outcome.steps = value := Option.some.inj (steps.symm.trans eq)
    exact Trace.spelled outcome.steps

theorem Response.computed_spelled (response : Response Computed) :
    Computed.Spelled response.computedToJson := by
  intro value eq
  cases response with
  | success computed =>
    obtain rfl : computed.result.toJson = value := Option.some.inj eq
    exact computed.result.spelled
  | error message => contradiction

theorem field?_object (fields : List (String × Json)) (name : String) :
    (object fields).field? name = fields.lookup name := rfl

theorem Step.normal_toJson (step : Step) : Step.normal step.toJson = step.toJson := by
  obtain ⟨phase, iteration, admitted, explanation, newVariables⟩ := step
  cases newVariables <;>
    simp [toJson, normal, pick, pickField, field?_object, List.lookup_cons, unlessEmpty, strings]

theorem Trace.normal_toJson (trace : Trace) : Trace.normal trace.toJson = trace.toJson := by
  simp [toJson, normal, Step.normal_toJson]

theorem Snapshot.normal_toJson (snapshot : Snapshot) :
    Snapshot.normal snapshot.toJson = snapshot.toJson := by
  simp [toJson, normal, pick, pickField, field?_object, List.lookup_cons]

theorem Outcome.normal_toJson (outcome : Outcome) :
    Outcome.normal outcome.toJson = outcome.toJson := by
  cases outcome <;>
    simp [toJson, normal, pickByTag, stringField?, string?, pick, pickField, field?_object,
      List.lookup_cons, Trace.normal_toJson, Snapshot.normal_toJson]

theorem Response.normal_loadedToJson (response : Response Loaded) :
    Response.normal Loaded.form response.loadedToJson = response.loadedToJson := by
  cases response <;>
    simp [loadedToJson, taggedSuccess, taggedError, normal, Loaded.form, pickByTag, stringField?,
      string?, pick, pickField, field?_object, List.lookup_cons, Snapshot.normal_toJson]

theorem Response.normal_computedToJson (response : Response Computed) :
    Response.normal Computed.form response.computedToJson = response.computedToJson := by
  cases response <;>
    simp [computedToJson, taggedSuccess, taggedError, normal, Computed.form, pickByTag,
      stringField?, string?, pick, pickField, field?_object, List.lookup_cons, Outcome.normal_toJson]

/-! ## Out and back -/

/-- What is encoded is decoded again, also from its text. What is decoded is encoded in its
normal form, and from there on nothing changes any more. -/
structure Lossless {α : Type} (encode : α → Json) (decode : Json → Option α)
    (Spelled : Json → Prop) (normal : Json → Json) : Prop where
  decode_encode : ∀ x, decode (encode x) = some x
  decode_printed : ∀ x, (ofText? (encode x).compact).bind decode = some x
  encode_decode : ∀ json, Spelled json → ∀ x, decode json = some x ↔ normal json = encode x
  normal_encode : ∀ x, normal (encode x) = encode x
  settled : ∀ json json', (decode json).map encode = some json' →
    (decode json').map encode = some json'

theorem Lossless.of_reads {α : Type} {encode : α → Json} {decode : Json → Option α}
    {Spelled : Json → Prop} {normal : Json → Json}
    (reads : ∀ json, Spelled json → ReadAs encode decode normal json)
    (spelled : ∀ x, Spelled (encode x)) (normal_encode : ∀ x, normal (encode x) = encode x)
    (numberless : ∀ x, (encode x).Numberless) : Lossless encode decode Spelled normal := by
  have decode_encode (x : α) : decode (encode x) = some x :=
    (reads (encode x) (spelled x) x).mpr (normal_encode x)
  refine ⟨decode_encode, fun x => ?_, reads, normal_encode, fun json json' turned => ?_⟩
  · rw [(numberless x).ofText?_compact, Option.bind_some, decode_encode]
  · obtain ⟨x, -, rfl⟩ := Option.map_eq_some_iff.mp turned
    rw [decode_encode, Option.map_some]

theorem Step.lossless (enclosure : Enclosure) :
    Lossless toJson (ofJson? enclosure) (·.Spelled "phase") normal :=
  .of_reads (fun _ => reads) spelled normal_toJson numberless

theorem Trace.lossless (enclosure : Enclosure) :
    Lossless Trace.toJson (Trace.ofJson? enclosure) Trace.Spelled Trace.normal :=
  .of_reads (fun _ => reads) spelled normal_toJson numberless

/-- A grammar has no phase and no tag. -/
theorem Snapshot.lossless : Lossless toJson ofJson? (fun _ => True) normal :=
  .of_reads (fun _ _ => reads) (fun _ => trivial) normal_toJson numberless

theorem Outcome.lossless (enclosure : Enclosure) :
    Lossless toJson (ofJson? enclosure) Outcome.Spelled normal :=
  .of_reads (fun _ => reads) spelled normal_toJson numberless

/-- The tag of a response is only read where it is a string. -/
theorem Response.loaded_lossless :
    Lossless loadedToJson loadedOfJson? (fun _ => True) (Response.normal Loaded.form) :=
  .of_reads (fun _ _ => loaded_reads) (fun _ => trivial) normal_loadedToJson loaded_numberless

theorem Response.computed_lossless :
    Lossless computedToJson computedOfJson? Computed.Spelled (Response.normal Computed.form) :=
  .of_reads (fun _ => computed_reads) computed_spelled normal_computedToJson computed_numberless

/-- Nothing is lost at the boundary, whatever a value stands in. -/
theorem boundary_lossless (enclosure : Enclosure) :
    Lossless Step.toJson (Step.ofJson? enclosure) (·.Spelled "phase") Step.normal ∧
    Lossless Trace.toJson (Trace.ofJson? enclosure) Trace.Spelled Trace.normal ∧
    Lossless Snapshot.toJson Snapshot.ofJson? (fun _ => True) Snapshot.normal ∧
    Lossless Outcome.toJson (Outcome.ofJson? enclosure) Outcome.Spelled Outcome.normal ∧
    Lossless Response.loadedToJson Response.loadedOfJson? (fun _ => True)
      (Response.normal Loaded.form) ∧
    Lossless Response.computedToJson Response.computedOfJson? Computed.Spelled
      (Response.normal Computed.form) :=
  ⟨Step.lossless enclosure, Trace.lossless enclosure, Snapshot.lossless,
    Outcome.lossless enclosure, Response.loaded_lossless, Response.computed_lossless⟩

/-- Another spelling of a phase is read too, but it is not what is written. -/
example : (Phase.ofJson? .untagged (.object [("unit", .null)])).map Phase.toJson =
    some (.string "unit") := rfl

end GrammarFixpoint
