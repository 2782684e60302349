import ModelServer.Commands.Edit
import ModelServer.TypeUtil.TypeKeys

namespace ModelServer.Commands
open Js Message TypeUtil Relations

section Messages

theorem hasKey_patchMessage {type key : String} {data : Json} (notType : key ≠ "type") (notData : key ≠ "data") :
    (patchMessage type data).HasKey key ↔ data.HasKey key := by
  have own : (patchMessage type data).child key = none := by
    simp [patchMessage, Json.child, lookup_entry, notType, notData]
  constructor
  · intro typed
    rcases (Json.hasKey_iff _ _).mp typed with ⟨-, present⟩ | ⟨name, c, found, below⟩
    · rw [own] at present
      cases present
    · simp only [patchMessage, Json.child, lookup_entry, List.lookup_nil] at found
      split at found
      · cases found
        exact absurd below (Json.not_hasKey_prim _ _)
      · split at found
        · cases found
          exact below
        · cases found
  · intro typed
    exact (Json.hasKey_iff _ _).mpr (.inr ⟨"data", data, rfl, typed⟩)

theorem converted_patchMessage (format : JsonFormat) (type : String) (data : Json) :
    ∃ result, converted format (patchMessage type data) = some result ∧
      result.child "type" = some (.prim (.string type)) := by
  by_cases typed : (patchMessage type data).HasKey format.typeKey
  · exact ⟨_, if_pos typed, rfl⟩
  · refine ⟨copyJson format .element (patchMessage type data), if_neg typed, ?_⟩
    have found : (patchMessage type data).child "type" = some (.prim (.string type)) := rfl
    have plain : renamedKey format "type" = "type" := by cases format <;> decide
    rcases child_copyJson typed (by decide) found .element with ⟨place, copied⟩
    rw [plain] at copied
    rw [copied, copyJson]

theorem converted_data (format : JsonFormat) (type : String) {props : List (String × Json)} {result : Json}
    (converts : converted format (patchMessage type (.obj props)) = some result) :
    ∃ data, result.child "data" = some data ∧ converted format (.obj props) = some data := by
  have keys : (patchMessage type (.obj props)).HasKey format.typeKey ↔ (Json.obj props).HasKey format.typeKey :=
    hasKey_patchMessage (by cases format <;> decide) (by cases format <;> decide)
  by_cases typed : (Json.obj props).HasKey format.typeKey
  · have whole : converted format (patchMessage type (.obj props)) = some (patchMessage type (.obj props)) :=
      if_pos (keys.mpr typed)
    cases whole.symm.trans converts
    exact ⟨_, rfl, if_pos typed⟩
  · have whole : converted format (patchMessage type (.obj props)) =
        some (copyJson format .element (patchMessage type (.obj props))) := if_neg fun given => typed (keys.mp given)
    cases whole.symm.trans converts
    refine ⟨copyJson format .property (.obj props), ?_, ?_⟩
    · cases format <;> rfl
    · simp only [converted, typed, if_false]
      rw [copyJson, copyJson]

def sentData (body : Json) : Option Json := (body.child "data").bind (·.child "data")

theorem sentData_same {a b : Json} (same : a.Same b) : Option.Rel Json.Same (sentData a) (sentData b) :=
  rel_bind (same.child "data") fun _ _ _ _ inner => inner.child "data"

theorem type_of_same {type type' : String} {a b : Json} (same : (bodyOf a).Same (bodyOf b))
    (has : a.child "type" = some (.prim (.string type))) (has' : b.child "type" = some (.prim (.string type'))) :
    type = type' := by
  have related := (bodyOf_same_iff.mp same).child "type"
  rw [has, has'] at related
  cases related with
  | some same => simpa [Json.shape] using same.shape

end Messages

section Formats

def IsJsonFormat (format : Format) : Prop := ∃ f : JsonFormat, format = f.name

def EncodedAlike (j : Json) (format format' : Format) : Prop :=
  format = format' ∨ (¬ IsJsonFormat format ∧ ¬ IsJsonFormat format') ∨
    (IsJsonFormat format ∧ IsJsonFormat format' ∧ j.HasKey "$type")

theorem EncodedAlike.symm {j : Json} {format format' : Format} (h : EncodedAlike j format format') :
    EncodedAlike j format' format := by
  rcases h with same | ⟨notJson, notJson'⟩ | ⟨json, json', typed⟩
  · exact .inl same.symm
  · exact .inr (.inl ⟨notJson', notJson⟩)
  · exact .inr (.inr ⟨json', json, typed⟩)

variable {text : JsonText} {modeluri : String} {message : Json}

theorem converted_differs {a b : Json} (typed : message.HasKey "eClass") (untyped : ¬ message.HasKey "$type")
    (json : converted .json message = some a) (jsonV2 : converted .jsonV2 message = some b) : ¬ a.Same b := by
  intro same
  have kept : converted .json message = some message := if_pos typed
  have renamed : ¬ b.HasKey "eClass" := by
    cases message with
    | prim p => exact absurd typed (Json.not_hasKey_prim p _)
    | arr elems =>
      have copied : converted .jsonV2 (.arr elems) = some (copyJson .jsonV2 .element (.arr elems)) := if_neg untyped
      cases copied.symm.trans jsonV2
      exact copyJson_noForeign .jsonV2 _ _
    | obj props =>
      have copied : converted .jsonV2 (.obj props) = some (copyJson .jsonV2 .element (.obj props)) := if_neg untyped
      cases copied.symm.trans jsonV2
      exact copyJson_noForeign .jsonV2 _ _
  cases kept.symm.trans json
  exact renamed (same.hasKey typed)

theorem converted_alike (typed : message.HasKey "eClass") (both : message.HasKey "$type") (format : JsonFormat) :
    converted format message = some message := by
  cases format
  · exact if_pos typed
  · exact if_pos both

theorem converted_same_iff_alike {f g : JsonFormat} {a b : Json} (typed : message.HasKey "eClass")
    (first : converted f message = some a) (second : converted g message = some b) :
    a.Same b ↔ f = g ∨ message.HasKey "$type" := by
  by_cases both : message.HasKey "$type"
  · cases (converted_alike typed both f).symm.trans first
    cases (converted_alike typed both g).symm.trans second
    exact ⟨fun _ => .inr both, fun _ => Json.Same.refl _⟩
  · constructor
    · intro same
      cases f <;> cases g
      · exact .inl rfl
      · exact absurd same (converted_differs typed both first second)
      · exact absurd same.symm (converted_differs typed both second first)
      · exact .inl rfl
    · intro alike
      rcases alike with rfl | typed'
      · cases first.symm.trans second
        exact Json.Same.refl _
      · exact absurd typed' both

theorem name_injective {f g : JsonFormat} (h : f.name = g.name) : f = g := by
  revert h
  cases f <;> cases g <;> decide

def SameBodies (text : JsonText) (modeluri : String) (message : Json) (format format' : Format) : Prop :=
  ∀ body, Sends (fun fuel => patchRequest text fuel modeluri format message) body ↔
    Sends (fun fuel => patchRequest text fuel modeluri format' message) body

theorem SameBodies.symm {format format' : Format} (alike : SameBodies text modeluri message format format') :
    SameBodies text modeluri message format' format := fun body => (alike body).symm

theorem sameBodies_json_iff (type : String) {data : Json} (typed : data.HasKey "eClass") (f g : JsonFormat) :
    SameBodies text modeluri (patchMessage type data) f.name g.name ↔ f = g ∨ data.HasKey "$type" := by
  have typed' : (patchMessage type data).HasKey "eClass" :=
    (hasKey_patchMessage (by decide) (by decide)).mpr typed
  have both : (patchMessage type data).HasKey "$type" ↔ data.HasKey "$type" :=
    hasKey_patchMessage (by decide) (by decide)
  rcases converted_patchMessage f type data with ⟨a, first, -⟩
  rcases converted_patchMessage g type data with ⟨b, second, -⟩
  rw [← both, ← converted_same_iff_alike typed' first second]
  simp only [SameBodies, sends_iff first, sends_iff second]
  constructor
  · intro sent
    exact bodyOf_same_iff.mp ((sent (bodyOf b)).mpr (Json.Same.refl _))
  · intro same body
    exact ⟨(bodyOf_same same).symm.trans, (bodyOf_same same).trans⟩

theorem not_sameBodies (type : String) (data : Json) {format format' : Format} (json : IsJsonFormat format)
    (notJson : ¬ IsJsonFormat format') : ¬ SameBodies text modeluri (patchMessage type data) format format' := by
  rcases json with ⟨f, rfl⟩
  rcases converted_patchMessage f type data with ⟨a, first, -⟩
  have silent : ∀ body, ¬ Sends (fun fuel => patchRequest text fuel modeluri format' (patchMessage type data)) body :=
    not_sends (not_exists.mp notJson)
  intro alike
  exact silent (bodyOf a) ((alike (bodyOf a)).mp ((sends_iff first (bodyOf a)).mpr (Json.Same.refl _)))

theorem not_encodedAlike {data : Json} {format format' : Format} (json : IsJsonFormat format)
    (notJson : ¬ IsJsonFormat format') : ¬ EncodedAlike data format format' := by
  intro alike
  rcases alike with rfl | ⟨notJson', -⟩ | ⟨-, json', -⟩
  · exact notJson json
  · exact notJson' json
  · exact notJson json'

theorem sends_alike_iff (type : String) {data : Json} (typed : data.HasKey "eClass") (format format' : Format) :
    SameBodies text modeluri (patchMessage type data) format format' ↔ EncodedAlike data format format' := by
  by_cases json : IsJsonFormat format
  · by_cases json' : IsJsonFormat format'
    · rcases json with ⟨f, rfl⟩
      rcases json' with ⟨g, rfl⟩
      rw [sameBodies_json_iff type typed]
      constructor
      · intro alike
        rcases alike with rfl | found
        · exact .inl rfl
        · exact .inr (.inr ⟨⟨f, rfl⟩, ⟨g, rfl⟩, found⟩)
      · intro encoded
        rcases encoded with same | ⟨notJson, -⟩ | ⟨-, -, found⟩
        · exact .inl (name_injective same)
        · exact absurd ⟨f, rfl⟩ notJson
        · exact .inr found
    · exact iff_of_false (not_sameBodies type data json json') (not_encodedAlike json json')
  · by_cases json' : IsJsonFormat format'
    · refine iff_of_false (fun alike => ?_) fun encoded => not_encodedAlike json' json encoded.symm
      exact not_sameBodies type data json' json alike.symm
    · have silent (given : Format) (other : ¬ IsJsonFormat given) (body : Json) :
          ¬ Sends (fun fuel => patchRequest text fuel modeluri given (patchMessage type data)) body :=
        not_sends (not_exists.mp other) body
      exact iff_of_true (fun body => iff_of_false (silent format json body) (silent format' json' body))
        (.inr (.inl ⟨json, json'⟩))

end Formats

section Backend

variable {text : JsonText} {fuel : Nat} {defaultFormat : Format} {modeluri : String} {format : Option Format}

theorem edit_instance (c : Command) : ModelServerClientV2.edit text fuel defaultFormat modeluri c.toValue format =
    patchRequest text fuel modeluri (format.getD defaultFormat) (patchMessage emfcommand c.toJson) :=
  if_pos c.instanceof_toValue

theorem wire_toValue (c : Command) : ∃ props, c.toValue.wire = .obj .object props := by
  cases c with
  | leaf leafClass fields =>
    rw [Command.toValue, Value.wire, Value.toJson, Value.ofJson]
    exact ⟨_, rfl⟩
  | compound commands fields =>
    rw [Command.toValue, Value.wire, Value.toJson, Value.ofJson]
    exact ⟨_, rfl⟩

theorem edit_wire_leaf {c : Command} (leaf : c.isCompound = false) :
    TheiaBackendModelServerClientV2.edit text fuel defaultFormat modeluri c.toValue.wire format =
      patchRequest text fuel modeluri defaultFormat (patchMessage emfcommand c.toJson) := by
  have document : c.toValue.wire.toJson = c.toJson := Value.toJson_wire _
  have accepted : ModelServerCommand.is c.toValue.wire.toJson = true := by
    rw [document, c.is_modelServerCommand, leaf]
    rfl
  rw [backendEdit_command accepted, document]

theorem edit_wire_compound {c : Command} (compound : c.isCompound = true) :
    TheiaBackendModelServerClientV2.edit text fuel defaultFormat modeluri c.toValue.wire format =
      patchRequest text fuel modeluri (format.getD defaultFormat) (patchMessage patchType (.arr [c.toJson])) := by
  have document : c.toValue.wire.toJson = c.toJson := Value.toJson_wire _
  have refused : ¬ ModelServerCommand.is c.toValue.wire.toJson = true := by
    rw [document, c.is_modelServerCommand, compound]
    decide
  rcases wire_toValue c with ⟨props, shape⟩
  have plain : ¬ c.toValue.wire.instanceofModelServerCommand = true := by
    rw [shape]
    exact Bool.false_ne_true
  have single : fullPatch c.toJson = [c.toJson] := by
    rw [← document, shape, Value.toJson]
    rfl
  unfold TheiaBackendModelServerClientV2.edit
  rw [if_neg refused, ModelServerClientV2.edit, if_neg plain, document, single]
  rfl

/-- The command reaches the server from the backend as it does from an instance: in the same body, never as a patch,
    and as the encoded command tree. -/
structure SentAlike (text : JsonText) (defaultFormat : Format) (modeluri : String) (c : Command)
    (format : Option Format) : Prop where
  body : ∀ body,
    Sends (fun fuel => ModelServerClientV2.edit text fuel defaultFormat modeluri c.toValue format) body ↔
      Sends (fun fuel => TheiaBackendModelServerClientV2.edit text fuel defaultFormat modeluri c.toValue.wire format) body
  command : ∀ body,
    Sends (fun fuel => TheiaBackendModelServerClientV2.edit text fuel defaultFormat modeluri c.toValue.wire format) body →
      body.shapeAt ["data", "type"] = some (.prim (.string emfcommand))
  tree : ∀ body (f : JsonFormat), format.getD defaultFormat = f.name →
    Sends (fun fuel => TheiaBackendModelServerClientV2.edit text fuel defaultFormat modeluri c.toValue.wire format) body →
      ∃ data, sentData body = some data ∧
        ∀ h object, Means text h object c.toJson → EncodesAs text f h object data

theorem tree_of_sends {f : JsonFormat} {props : List (String × Json)} {body : Json}
    (sends : Sends (fun fuel => patchRequest text fuel modeluri f.name (patchMessage emfcommand (.obj props))) body) :
    ∃ data, sentData body = some data ∧
      ∀ h object, Means text h object (.obj props) → EncodesAs text f h object data := by
  rcases converted_patchMessage f emfcommand (.obj props) with ⟨result, converts, -⟩
  rcases converted_data f emfcommand converts with ⟨tree, found, converted⟩
  have related := sentData_same ((sends_iff converts body).mp sends)
  rw [show sentData (bodyOf result) = result.child "data" from rfl, found] at related
  cases sent : sentData body with
  | none =>
    rw [sent] at related
    cases related
  | some data =>
    rw [sent] at related
    cases related with
    | some same => exact ⟨data, rfl, fun h object means => (encodesAs_iff means data).mpr ⟨tree, converted, same⟩⟩

theorem command_of_sends {format : Format} {data body : Json}
    (sends : Sends (fun fuel => patchRequest text fuel modeluri format (patchMessage emfcommand data)) body) :
    body.shapeAt ["data", "type"] = some (.prim (.string emfcommand)) := by
  by_cases json : IsJsonFormat format
  · rcases json with ⟨f, rfl⟩
    rcases converted_patchMessage f emfcommand data with ⟨result, converts, type⟩
    have data : (bodyOf result).child "data" = some result := rfl
    rw [← (sends_iff converts body).mp sends, Json.shapeAt_cons, data, Option.bind_some, Json.shapeAt_cons, type]
    rfl
  · exact absurd sends (not_sends (not_exists.mp json) body)

theorem sentAlike_leaf {c : Command} (leaf : c.isCompound = false) : SentAlike text defaultFormat modeluri c format ↔
    EncodedAlike c.toJson (format.getD defaultFormat) defaultFormat := by
  rw [← @sends_alike_iff text modeluri emfcommand _ c.hasKey_eClass]
  constructor
  · intro sent body
    simpa only [edit_instance, edit_wire_leaf leaf] using sent.body body
  · intro sent
    refine ⟨fun body => ?body, fun body => ?command, fun body f named => ?tree⟩
    case body => simpa only [edit_instance, edit_wire_leaf leaf] using sent body
    case command =>
      simp only [edit_wire_leaf leaf]
      exact command_of_sends
    case tree =>
      simp only [edit_wire_leaf leaf]
      intro sends
      rcases c.toJson_obj with ⟨props, tree⟩
      have requested := (sent body).mpr sends
      rw [named, tree] at requested
      rw [tree]
      exact tree_of_sends requested

theorem sentAlike_compound {c : Command} (compound : c.isCompound = true) :
    SentAlike text defaultFormat modeluri c format ↔ ¬ IsJsonFormat (format.getD defaultFormat) := by
  constructor
  · intro sent json
    rcases json with ⟨f, named⟩
    rcases converted_patchMessage f emfcommand c.toJson with ⟨a, converts, type⟩
    rcases converted_patchMessage f patchType (.arr [c.toJson]) with ⟨b, converts', type'⟩
    have bodies := sent.body (bodyOf a)
    simp only [edit_instance, edit_wire_compound compound, named, sends_iff converts, sends_iff converts'] at bodies
    have same := type_of_same (bodies.mp (Json.Same.refl _)) type' type
    revert same
    decide
  · intro notJson
    have silent (message body : Json) :
        ¬ Sends (fun fuel => patchRequest text fuel modeluri (format.getD defaultFormat) message) body :=
      not_sends (not_exists.mp notJson) body
    refine ⟨fun body => ?_, fun body => ?_, fun body f named => absurd ⟨f, named⟩ notJson⟩
    · simp only [edit_instance, edit_wire_compound compound]
      exact iff_of_false (silent _ body) (silent _ body)
    · simp only [edit_wire_compound compound]
      exact fun sends => absurd sends (silent _ body)

/-- The backend sends a command like the client it extends exactly where its root is no compound command
    and the format that it drops makes no difference, or where nothing is sent at all. -/
theorem edit_sent_alike_iff (text : JsonText) (defaultFormat : Format) (modeluri : String) (c : Command)
    (format : Option Format) : SentAlike text defaultFormat modeluri c format ↔
      (c.isCompound = true → ¬ IsJsonFormat (format.getD defaultFormat)) ∧
      (c.isCompound = false → EncodedAlike c.toJson (format.getD defaultFormat) defaultFormat) := by
  cases root : c.isCompound with
  | true => simp [sentAlike_compound root]
  | false => simp [sentAlike_leaf root]

/-- A compound command with one child, in the default format. -/
theorem edit_compound_as_patch :
    ¬ SentAlike plainText FORMAT_JSON_V2 "model.ecore" (.compound [.leaf .setCommand []] []) none := by
  rw [sentAlike_compound rfl]
  intro notJson
  exact notJson ⟨.jsonV2, rfl⟩

end Backend

end ModelServer.Commands
