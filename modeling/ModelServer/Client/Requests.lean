import ModelServer.Commands.Edit

namespace ModelServer.Client
open Js Message TypeUtil Commands

abbrev TypeGuard := Json → Bool

inductive FormatOrGuard
  | format (format : Format)
  | guard (typeGuard : TypeGuard)

inductive Method
  | get
  | post
  | put
  deriving DecidableEq, Repr

def MODEL_CRUD : String := "models"

def MODEL_ELEMENT : String := "modelelement"

/-- A request of the REST client. Its parameter `format` may be undefined. -/
structure HttpRequest where
  method : Method
  path : String
  params : List (String × String)
  format : Option Format
  data : Option (Heap × RequestBody)

structure ModelServerClientV2 where
  defaultFormat : Format

namespace ModelServerClientV2

def initialized (defaultFormat : Option Format) : ModelServerClientV2 where
  defaultFormat := defaultFormat.getD FORMAT_JSON_V2

variable (client : ModelServerClientV2)

def get (modeluri : String) (formatOrGuard : Option FormatOrGuard) (format : Option Format) : HttpRequest :=
  let request (format : Option Format) : HttpRequest := ⟨.get, MODEL_CRUD, [("modeluri", modeluri)], format, none⟩
  match formatOrGuard with
  | some (.guard _) => request format
  | some (.format format) => request (some format)
  | none => request (some client.defaultFormat)

def truthy : Option FormatOrGuard → Option FormatOrGuard
  | some (.format format) => if format = "" then none else some (.format format)
  | formatOrGuard => formatOrGuard

def getAll (formatOrGuard : Option FormatOrGuard) : HttpRequest :=
  let request (format : Format) : HttpRequest := ⟨.get, MODEL_CRUD, [], some format, none⟩
  match truthy formatOrGuard with
  | none => request client.defaultFormat
  | some (.format format) => request format
  | some (.guard _) => request client.defaultFormat

/-- How the other methods find the format: the last argument or the default, unless a format stands in the
    place of the guard. -/
def resolveFormat (formatOrGuard : Option FormatOrGuard) (format : Option Format) : Format :=
  let format := format.getD client.defaultFormat
  match truthy formatOrGuard with
  | some (.guard _) => format
  | some (.format format) => format
  | none => format

def elementRequest (key modeluri element : String) (format : Format) : HttpRequest :=
  ⟨.get, MODEL_ELEMENT, [("modeluri", modeluri), (key, element)], some format, none⟩

def getElementById (modeluri elementid : String) (formatOrGuard : Option FormatOrGuard) (format : Option Format) :
    HttpRequest :=
  elementRequest "elementid" modeluri elementid (client.resolveFormat formatOrGuard format)

def getElementByName (modeluri elementname : String) (formatOrGuard : Option FormatOrGuard) (format : Option Format) :
    HttpRequest :=
  elementRequest "elementname" modeluri elementname (client.resolveFormat formatOrGuard format)

def modelRequest (text : JsonText) (fuel : Nat) (method : Method) (heap : Heap) (modeluri : String) (model : Payload)
    (format : Format) : Exec HttpRequest := do
  let encoder ← MonadExcept.ofExcept (encodeRequestBody text fuel format)
  let data ← encoder heap model
  return ⟨method, MODEL_CRUD, [("modeluri", modeluri)], some format, some data⟩

def create (text : JsonText) (fuel : Nat) (heap : Heap) (modeluri : String) (model : Payload)
    (formatOrGuard : Option FormatOrGuard) (format : Option Format) : Exec HttpRequest :=
  modelRequest text fuel .post heap modeluri model (client.resolveFormat formatOrGuard format)

def update (text : JsonText) (fuel : Nat) (heap : Heap) (modeluri : String) (model : Payload)
    (formatOrGuard : Option FormatOrGuard) (format : Option Format) : Exec HttpRequest :=
  modelRequest text fuel .put heap modeluri model (client.resolveFormat formatOrGuard format)

end ModelServerClientV2

open ModelServerClientV2

inductive Shape
  | plain
  | explicit (format : Format)
  | guarded (typeGuard : TypeGuard)
  | guardedExplicit (typeGuard : TypeGuard) (format : Format)

namespace Shape

def formatOrGuard : Shape → Option FormatOrGuard
  | plain => none
  | explicit format => some (.format format)
  | guarded typeGuard => some (.guard typeGuard)
  | guardedExplicit typeGuard _ => some (.guard typeGuard)

def format : Shape → Option Format
  | guardedExplicit _ format => some format
  | _ => none

def passed : Shape → Option Format
  | explicit format => some format
  | guardedExplicit _ format => some format
  | _ => none

end Shape

inductive Call
  | get (modeluri : String) (shape : Shape)
  | getAll (formatOrGuard : Option FormatOrGuard)
  | getElementById (modeluri elementid : String) (shape : Shape)
  | getElementByName (modeluri elementname : String) (shape : Shape)
  | create (heap : Heap) (modeluri : String) (model : Payload) (shape : Shape)
  | update (heap : Heap) (modeluri : String) (model : Payload) (shape : Shape)
  | edit (modeluri : String) (patchOrCommand : Value) (format : Option Format)
  | backendEdit (modeluri : String) (patchOrCommand : Value) (format : Option Format)

def Call.passed : Call → Option Format
  | get _ shape | getElementById _ _ shape | getElementByName _ _ shape | create _ _ _ shape | update _ _ _ shape =>
    shape.passed
  | getAll (some (.format format)) => some format
  | getAll _ => none
  | edit _ _ format | backendEdit _ _ format => format

inductive Sent
  | request (request : HttpRequest)
  | edited (edited : Edited)

section Calls

variable (text : JsonText)

def run (client : ModelServerClientV2) (fuel : Nat) : Call → Exec Sent
  | .get modeluri shape => return .request (client.get modeluri shape.formatOrGuard shape.format)
  | .getAll formatOrGuard => return .request (client.getAll formatOrGuard)
  | .getElementById modeluri elementid shape =>
    return .request (client.getElementById modeluri elementid shape.formatOrGuard shape.format)
  | .getElementByName modeluri elementname shape =>
    return .request (client.getElementByName modeluri elementname shape.formatOrGuard shape.format)
  | .create heap modeluri model shape =>
    .request <$> client.create text fuel heap modeluri model shape.formatOrGuard shape.format
  | .update heap modeluri model shape =>
    .request <$> client.update text fuel heap modeluri model shape.formatOrGuard shape.format
  | .edit modeluri patchOrCommand format =>
    .edited <$> Commands.ModelServerClientV2.edit text fuel client.defaultFormat modeluri patchOrCommand format
  | .backendEdit modeluri patchOrCommand format =>
    .edited <$> TheiaBackendModelServerClientV2.edit text fuel client.defaultFormat modeluri patchOrCommand format

def encodedIn (format : Format) (fuel : Nat) (heap : Heap) (document : Payload) (send : Heap → Payload → Exec Sent) :
    Exec Sent := do
  let encoder ← MonadExcept.ofExcept (encode text fuel format)
  let (heap, data) ← encoder heap document
  send heap data

def modelIn (format : Format) (method : Method) (modeluri : String) (heap : Heap) (data : Payload) : Exec Sent :=
  return .request ⟨method, MODEL_CRUD, [("modeluri", modeluri)], some format, some (heap, ⟨data⟩)⟩

def editIn (format : Format) (fuel : Nat) (modeluri : String) (heap : Heap) (data : Payload) : Exec Sent := do
  let data ← payloadJson fuel heap data
  return .edited (.request ⟨modeluri, format, .obj [("data", data)]⟩)

/-- A patch or command is sent as a message of one of the two types, unless there is nothing to be sent. -/
def EditsIn (format : Format) (fuel : Nat) (modeluri : String) (patchOrCommand : Value) (outcome : Exec Sent) : Prop :=
  (fullPatch patchOrCommand.toJson = [] ∧ outcome = pure (.edited .noOp)) ∨
    ∃ message, (message = patchMessage emfcommand patchOrCommand.toJson ∨
        message = patchMessage patchType (.arr (fullPatch patchOrCommand.toJson))) ∧
      outcome = encodedIn text format fuel (store ⟨[]⟩ message).1 (.value (store ⟨[]⟩ message).2) (editIn format fuel modeluri)

/-- The parameter of the request is the format, and its body, if it has one, is encoded in the format. -/
def AsksIn (format : Format) (fuel : Nat) (outcome : Exec Sent) : Call → Prop
  | .get modeluri _ => outcome = pure (.request ⟨.get, MODEL_CRUD, [("modeluri", modeluri)], some format, none⟩)
  | .getAll _ => outcome = pure (.request ⟨.get, MODEL_CRUD, [], some format, none⟩)
  | .getElementById modeluri elementid _ => outcome =
    pure (.request ⟨.get, MODEL_ELEMENT, [("modeluri", modeluri), ("elementid", elementid)], some format, none⟩)
  | .getElementByName modeluri elementname _ => outcome =
    pure (.request ⟨.get, MODEL_ELEMENT, [("modeluri", modeluri), ("elementname", elementname)], some format, none⟩)
  | .create heap modeluri model _ => outcome = encodedIn text format fuel heap model (modelIn format .post modeluri)
  | .update heap modeluri model _ => outcome = encodedIn text format fuel heap model (modelIn format .put modeluri)
  | .edit modeluri patchOrCommand _ => EditsIn text format fuel modeluri patchOrCommand outcome
  | .backendEdit modeluri patchOrCommand _ => EditsIn text format fuel modeluri patchOrCommand outcome

/-- The format of the request is the one that is passed, else the default of the client. -/
def KeepsFormat (client : ModelServerClientV2) (call : Call) : Prop :=
  ∀ fuel, AsksIn text (call.passed.getD client.defaultFormat) fuel (run text client fuel call) call

end Calls

section Formats

variable {text : JsonText}

/-- The calls that keep the format: no lookup with a guard alone, no empty format where the code tests for
    truth, and no command of the backend with another format than the default. -/
def Kept (default : Format) : Call → Prop
  | .get _ (.guarded _) => False
  | .get _ _ => True
  | .getAll (some (.format format)) => format = "" → default = ""
  | .getAll _ => True
  | .getElementById _ _ shape | .getElementByName _ _ shape | .create _ _ _ shape | .update _ _ _ shape =>
    shape = .explicit "" → default = ""
  | .edit _ _ _ => True
  | .backendEdit _ patchOrCommand format =>
    ModelServerCommand.is patchOrCommand.toJson = true → ∀ explicit, format = some explicit → explicit = default

theorem resolveFormat_shape (client : ModelServerClientV2) (shape : Shape) :
    client.resolveFormat shape.formatOrGuard shape.format = shape.passed.getD client.defaultFormat ∨
      (shape = .explicit "" ∧ client.resolveFormat shape.formatOrGuard shape.format = client.defaultFormat) := by
  cases shape with
  | explicit format =>
    by_cases empty : format = ""
    · subst empty
      exact .inr ⟨rfl, rfl⟩
    · refine .inl ?_
      simp [resolveFormat, truthy, Shape.formatOrGuard, Shape.passed, empty]
  | plain => exact .inl rfl
  | guarded typeGuard => exact .inl rfl
  | guardedExplicit typeGuard format => exact .inl rfl

theorem resolveFormat_iff (client : ModelServerClientV2) (shape : Shape) :
    client.resolveFormat shape.formatOrGuard shape.format = shape.passed.getD client.defaultFormat ↔
      (shape = .explicit "" → client.defaultFormat = "") := by
  have dropped : client.resolveFormat (Shape.explicit "").formatOrGuard (Shape.explicit "").format =
      client.defaultFormat := rfl
  have passed : (Shape.explicit "").passed.getD client.defaultFormat = "" := rfl
  rcases resolveFormat_shape client shape with same | ⟨rfl, -⟩
  · refine ⟨fun _ empty => ?_, fun _ => same⟩
    subst empty
    rwa [dropped, passed] at same
  · rw [dropped, passed]
    exact ⟨fun same _ => same, fun same => same rfl⟩

theorem request_modelRequest (fuel : Nat) (method : Method) (heap : Heap) (modeluri : String) (model : Payload)
    (format : Format) : Sent.request <$> modelRequest text fuel method heap modeluri model format =
      encodedIn text format fuel heap model (modelIn format method modeluri) := by
  unfold modelRequest encodeRequestBody encodedIn
  cases encode text fuel format with
  | error e => rfl
  | ok encoder =>
    change Sent.request <$> ((encoder heap model >>= fun r => pure (r.1, RequestBody.mk r.2)) >>= fun data => pure _) =
      encoder heap model >>= fun r => modelIn format method modeluri r.1 r.2
    simp only [bind_assoc, pure_bind, map_bind, map_pure]
    rfl

theorem edited_patchRequest (fuel : Nat) (modeluri : String) (message : Json) (format : Format) :
    Sent.edited <$> patchRequest text fuel modeluri format message =
      encodedIn text format fuel (store ⟨[]⟩ message).1 (.value (store ⟨[]⟩ message).2) (editIn format fuel modeluri) := by
  unfold patchRequest encodeRequestBody encodedIn editIn
  cases encode text fuel format with
  | error e => rfl
  | ok encoder =>
    change Sent.edited <$> ((encoder (store ⟨[]⟩ message).1 (.value (store ⟨[]⟩ message).2) >>=
        fun r => pure (r.1, RequestBody.mk r.2)) >>= fun r => (payloadJson fuel r.1 r.2.data : Exec Json) >>= fun data => pure _) =
      encoder (store ⟨[]⟩ message).1 (.value (store ⟨[]⟩ message).2) >>= fun r => (payloadJson fuel r.1 r.2 : Exec Json) >>= fun data => pure _
    simp only [bind_assoc, pure_bind, map_bind, map_pure]

theorem editsIn_edit (fuel : Nat) (default : Format) (modeluri : String) (patchOrCommand : Value) (format : Option Format) :
    EditsIn text (format.getD default) fuel modeluri patchOrCommand
      (.edited <$> Commands.ModelServerClientV2.edit text fuel default modeluri patchOrCommand format) := by
  unfold Commands.ModelServerClientV2.edit
  split
  · exact .inr ⟨_, .inl rfl, edited_patchRequest fuel modeluri _ _⟩
  · split
    · rename_i empty
      exact .inl ⟨List.isEmpty_iff.mp empty, rfl⟩
    · exact .inr ⟨_, .inr rfl, edited_patchRequest fuel modeluri _ _⟩

def unsupported (format : Format) : String := "Unsupported message format: " ++ format

theorem encode_unsupported {format : Format} (notJson : ∀ f : JsonFormat, format ≠ f.name)
    (notXMI : format ≠ FORMAT_XMI) (fuel : Nat) : encode text fuel format = .error (unsupported format) := by
  have notV1 : format ≠ FORMAT_JSON_V1 := notJson .json
  have notV2 : format ≠ FORMAT_JSON_V2 := notJson .jsonV2
  unfold encode unsupported
  rw [if_neg notXMI, if_neg notV1, if_neg notV2]

theorem unsupported_injective {format format' : Format} (same : unsupported format = unsupported format') :
    format = format' := (String.append_right_inj _).mp same

theorem unsupported_head (format : Format) : (unsupported format).toList.head? = some 'U' := by
  have appended : unsupported format = "Unsupported message format: " ++ format := rfl
  rw [appended, String.toList_append, List.head?_append]
  rfl

theorem unsupported_ne {message : String} (other : message.toList.head? ≠ some 'U') (format : Format) :
    message ≠ unsupported format := by
  intro same
  rw [same] at other
  exact other (unsupported_head format)

theorem modelRequest_unsupported {format : Format} (notJson : ∀ f : JsonFormat, format ≠ f.name)
    (notXMI : format ≠ FORMAT_XMI) (fuel : Nat) (method : Method) (heap : Heap) (modeluri : String) (model : Payload) :
    modelRequest text fuel method heap modeluri model format = throw (unsupported format) := by
  unfold modelRequest encodeRequestBody
  rw [encode_unsupported notJson notXMI]
  rfl

theorem bind_throws {α β : Type} {x : Option α} {next : α → Exec β} {e : String}
    (threw : ((x : Exec α) >>= next) = throw e) : ∃ a, x = some a ∧ next a = throw e := by
  cases x with
  | none => cases threw
  | some a => exact ⟨a, rfl, threw⟩

theorem handleString_throws {fuel : Nat} {fn : Heap → Val → Option (Heap × Val)} {heap : Heap} {object : Payload}
    {e : String} (threw : handleString text fuel fn heap object = throw e) : e = "SyntaxError" := by
  cases object with
  | value v =>
    rcases bind_throws threw with ⟨result, -, impossible⟩
    cases impossible
  | text s =>
    simp only [handleString] at threw
    cases parsed : text.parse s with
    | none =>
      rw [parsed] at threw
      cases threw
      rfl
    | some j =>
      simp only [parsed] at threw
      rcases bind_throws threw with ⟨result, -, writing⟩
      rcases bind_throws writing with ⟨out, -, impossible⟩
      cases impossible

theorem modelRequest_supported {format : Format} (supported : (∃ f : JsonFormat, format = f.name) ∨ format = FORMAT_XMI)
    (fuel : Nat) (method : Method) (heap : Heap) (modeluri : String) (model : Payload) (format' : Format) :
    modelRequest text fuel method heap modeluri model format ≠ throw (unsupported format') := by
  have syntaxError := unsupported_ne (by decide : "SyntaxError".toList.head? ≠ some 'U') format'
  have notString := unsupported_ne (by decide : "Attempt to encode non-string as XML".toList.head? ≠ some 'U') format'
  intro same
  rcases supported with ⟨f, rfl⟩ | rfl
  · unfold modelRequest encodeRequestBody at same
    rw [encode_name] at same
    cases result : handleString text fuel (asJson f fuel) heap model with
    | none =>
      change (do let data ← (do let r ← handleString text fuel (asJson f fuel) heap model; pure (r.1, RequestBody.mk r.2))
                 pure _) = throw _ at same
      rw [result] at same
      cases same
    | some outcome =>
      change (do let data ← (do let r ← handleString text fuel (asJson f fuel) heap model; pure (r.1, RequestBody.mk r.2))
                 pure _) = throw _ at same
      rw [result] at same
      cases outcome with
      | error e =>
        cases same
        exact syntaxError (handleString_throws result).symm
      | ok r => cases same
  · cases model with
    | text s => cases same
    | value v => exact notString (Except.error.inj (Option.some.inj same))

theorem modelRequest_empty {format : Format} (given : format ≠ "") (method : Method) (heap : Heap) (modeluri : String)
    (model : Payload) :
    modelRequest text 0 method heap modeluri model format ≠ modelRequest text 0 method heap modeluri model "" := by
  have notJson : ∀ f : JsonFormat, "" ≠ f.name := by
    intro f
    cases f <;> decide
  rw [modelRequest_unsupported notJson (by decide) 0 method heap modeluri model]
  by_cases supported : (∃ f : JsonFormat, format = f.name) ∨ format = FORMAT_XMI
  · exact modelRequest_supported supported 0 method heap modeluri model ""
  · rcases not_or.mp supported with ⟨notJson', notXMI⟩
    rw [modelRequest_unsupported (not_exists.mp notJson') notXMI]
    intro same
    exact given (unsupported_injective (Except.error.inj (Option.some.inj same)))

def Shows (out : Exec Edited) (format : Format) : Prop :=
  (∃ modeluri body, out = pure (.request ⟨modeluri, format, body⟩)) ∨
    (format = FORMAT_XMI ∧ out = throw "Attempt to encode non-string as XML") ∨ out = throw (unsupported format)

theorem Shows.injective {out : Exec Edited} {format format' : Format} (shows : Shows out format)
    (shows' : Shows out format') : format = format' := by
  have notString := unsupported_ne (by decide : "Attempt to encode non-string as XML".toList.head? ≠ some 'U')
  rcases shows with ⟨modeluri, body, rfl⟩ | ⟨rfl, rfl⟩ | rfl
  · rcases shows' with ⟨modeluri', body', same⟩ | ⟨-, same⟩ | same
    · cases same
      rfl
    · cases same
    · cases same
  · rcases shows' with ⟨modeluri', body', same⟩ | ⟨rfl, -⟩ | same
    · cases same
    · rfl
    · exact absurd (Except.error.inj (Option.some.inj same)) (notString format')
  · rcases shows' with ⟨modeluri', body', same⟩ | ⟨rfl, same⟩ | same
    · cases same
    · exact absurd (Except.error.inj (Option.some.inj same)).symm (notString format)
    · exact unsupported_injective (Except.error.inj (Option.some.inj same))

theorem Shows.sends {out : Exec Edited} {format : Format} (shows : Shows out format) : out ≠ pure .noOp := by
  rcases shows with ⟨modeluri, body, rfl⟩ | ⟨-, rfl⟩ | rfl
  · exact nofun
  · exact nofun
  · exact nofun

theorem patchRequest_shows (text : JsonText) (modeluri : String) (props : List (String × Json)) (format : Format) :
    ∃ need, ∀ fuel, need < fuel → Shows (patchRequest text fuel modeluri format (.obj props)) format := by
  by_cases json : ∃ f : JsonFormat, format = f.name
  · rcases json with ⟨f, rfl⟩
    have converts : ∃ result, converted f (.obj props) = some result := by
      by_cases typed : (Json.obj props).HasKey f.typeKey
      · exact ⟨_, if_pos typed⟩
      · exact ⟨_, if_neg typed⟩
    rcases converts with ⟨result, converts⟩
    rcases patchRequest_spec text modeluri converts with ⟨need, spec⟩
    refine ⟨need, fun fuel enough => ?_⟩
    rcases spec fuel enough with ⟨data, called, -⟩
    exact .inl ⟨modeluri, _, called⟩
  · refine ⟨0, fun fuel _ => ?_⟩
    by_cases xmi : format = FORMAT_XMI
    · subst xmi
      exact .inr (.inl ⟨rfl, rfl⟩)
    · refine .inr (.inr ?_)
      unfold patchRequest encodeRequestBody
      rw [encode_unsupported (not_exists.mp json) xmi]
      rfl

theorem map_injective {α : Type} {f : α → Sent} (injective : Function.Injective f) {x y : Exec α}
    (same : f <$> x = f <$> y) : x = y := by
  cases x with
  | none =>
    cases y with
    | none => rfl
    | some outcome => cases outcome <;> cases same
  | some outcome =>
    cases y with
    | none => cases outcome <;> cases same
    | some outcome' =>
      cases outcome with
      | error e =>
        cases outcome' with
        | error e' => cases same; rfl
        | ok b => cases same
      | ok a =>
        cases outcome' with
        | error e' => cases same
        | ok b =>
          have values : f a = f b := Except.ok.inj (Option.some.inj same)
          rw [injective values]

theorem request_injective : Function.Injective Sent.request := fun _ _ same => Sent.request.inj same

theorem edited_injective : Function.Injective Sent.edited := fun _ _ same => Sent.edited.inj same

theorem resolved_iff (client : ModelServerClientV2) (shape : Shape) (request : Nat → Format → Exec HttpRequest)
    (distinct : ∀ format, format ≠ "" → request 0 format ≠ request 0 "") :
    (∀ fuel, Sent.request <$> request fuel (client.resolveFormat shape.formatOrGuard shape.format) =
      Sent.request <$> request fuel (shape.passed.getD client.defaultFormat)) ↔
      (shape = .explicit "" → client.defaultFormat = "") := by
  rw [← resolveFormat_iff client shape]
  constructor
  · intro same
    by_contra differs
    rcases resolveFormat_shape client shape with kept | ⟨rfl, dropped⟩
    · exact differs kept
    · rw [dropped] at same differs
      exact distinct client.defaultFormat differs (map_injective request_injective (same 0))
  · intro same fuel
    rw [same]

theorem elementRequest_distinct (key modeluri element : String) (format : Format) (given : format ≠ "") :
    (pure (elementRequest key modeluri element format) : Exec HttpRequest) ≠ pure (elementRequest key modeluri element "") := by
  intro same
  have requests := Except.ok.inj (Option.some.inj same)
  simp only [elementRequest, HttpRequest.mk.injEq, Option.some.injEq, true_and, and_true] at requests
  exact given requests

theorem getAll_format (default format : Format) :
    KeepsFormat text (initialized (some default)) (.getAll (some (.format format))) ↔ (format = "" → default = "") := by
  by_cases empty : format = ""
  · subst empty
    refine ⟨fun keeps _ => ?_, fun same fuel => ?_⟩
    · have requests := Sent.request.inj (Except.ok.inj (Option.some.inj (keeps 0)))
      exact Option.some.inj (congrArg HttpRequest.format requests)
    · rw [same rfl]
      rfl
  · refine ⟨fun _ same => absurd same empty, fun _ fuel => ?_⟩
    simp only [AsksIn, run, ModelServerClientV2.getAll, truthy, if_neg empty, Call.passed, Option.getD_some]

theorem editsIn_patchRequest (text : JsonText) (modeluri : String) (patchOrCommand : Value) (format format' : Format) :
    (∀ fuel, EditsIn text format' fuel modeluri patchOrCommand
      (.edited <$> patchRequest text fuel modeluri format (patchMessage emfcommand patchOrCommand.toJson))) ↔
      format = format' := by
  constructor
  · intro edits
    rcases patchRequest_shows text modeluri [("type", .prim (.string emfcommand)), ("data", patchOrCommand.toJson)] format
      with ⟨need, shows⟩
    rcases patchRequest_shows text modeluri [("type", .prim (.string emfcommand)), ("data", patchOrCommand.toJson)] format'
      with ⟨need₁, shows₁⟩
    rcases patchRequest_shows text modeluri
      [("type", .prim (.string patchType)), ("data", .arr (fullPatch patchOrCommand.toJson))] format' with ⟨need₂, shows₂⟩
    have shown := shows (need + need₁ + need₂ + 1) (by omega)
    rcases edits (need + need₁ + need₂ + 1) with ⟨-, nothing⟩ | ⟨message', kind, same⟩
    · exact absurd (map_injective edited_injective nothing) shown.sends
    · rw [← edited_patchRequest] at same
      have requests := map_injective edited_injective same
      rcases kind with rfl | rfl
      · exact shown.injective (requests ▸ shows₁ _ (by omega))
      · exact shown.injective (requests ▸ shows₂ _ (by omega))
  · intro same fuel
    subst same
    exact .inr ⟨_, .inl rfl, edited_patchRequest fuel modeluri _ format⟩

theorem backendEdit_iff (default : Format) (modeluri : String) (patchOrCommand : Value) (format : Option Format) :
    KeepsFormat text (initialized (some default)) (.backendEdit modeluri patchOrCommand format) ↔
      (ModelServerCommand.is patchOrCommand.toJson = true → ∀ explicit, format = some explicit → explicit = default) := by
  by_cases command : ModelServerCommand.is patchOrCommand.toJson = true
  · -- the base class sends the command in the default format, whatever the argument is
    have sent (fuel : Nat) : TheiaBackendModelServerClientV2.edit text fuel default modeluri patchOrCommand format =
        patchRequest text fuel modeluri default (patchMessage emfcommand patchOrCommand.toJson) :=
      backendEdit_command command format
    have keeps_iff : KeepsFormat text (initialized (some default)) (.backendEdit modeluri patchOrCommand format) ↔
        default = format.getD default := by
      refine (forall_congr' fun fuel => ?_).trans (editsIn_patchRequest text modeluri patchOrCommand default _)
      simp only [AsksIn, run, Call.passed, initialized, Option.getD_some, sent]
    rw [keeps_iff]
    constructor
    · intro same _ explicit given
      subst given
      exact same.symm
    · intro only
      cases format with
      | none => rfl
      | some explicit => rw [only command explicit rfl, Option.getD_some]
  · refine ⟨fun _ is => absurd is command, fun _ fuel => ?_⟩
    simp only [AsksIn, run, Call.passed, initialized, Option.getD_some, TheiaBackendModelServerClientV2.edit, if_neg command]
    exact editsIn_edit fuel default modeluri patchOrCommand format

theorem modelRequest_iff (client : ModelServerClientV2) (shape : Shape) (method : Method) (heap : Heap) (modeluri : String)
    (model : Payload) :
    (∀ fuel, Sent.request <$> modelRequest text fuel method heap modeluri model
        (client.resolveFormat shape.formatOrGuard shape.format) =
      encodedIn text (shape.passed.getD client.defaultFormat) fuel heap model
        (modelIn (shape.passed.getD client.defaultFormat) method modeluri)) ↔
      (shape = .explicit "" → client.defaultFormat = "") := by
  simp only [← request_modelRequest]
  exact resolved_iff client shape (fun fuel format => modelRequest text fuel method heap modeluri model format)
    fun format given => modelRequest_empty given method heap modeluri model

/-- Every call keeps the format but lookups with a guard alone, empty formats that are taken for missing
    ones, and commands that the backend sends in the default format. -/
theorem keepsFormat_iff (text : JsonText) (default : Format) (call : Call) :
    KeepsFormat text (initialized (some default)) call ↔ Kept default call := by
  cases call with
  | get modeluri shape =>
    cases shape with
    | guarded typeGuard =>
      simp only [Kept, iff_false]
      intro keeps
      have requests := Sent.request.inj (Except.ok.inj (Option.some.inj (keeps 0)))
      cases congrArg HttpRequest.format requests
    | plain => exact ⟨fun _ => trivial, fun _ _ => rfl⟩
    | explicit format => exact ⟨fun _ => trivial, fun _ _ => rfl⟩
    | guardedExplicit typeGuard format => exact ⟨fun _ => trivial, fun _ _ => rfl⟩
  | getAll formatOrGuard =>
    cases formatOrGuard with
    | none => exact ⟨fun _ => trivial, fun _ _ => rfl⟩
    | some formatOrGuard =>
      cases formatOrGuard with
      | guard typeGuard => exact ⟨fun _ => trivial, fun _ _ => rfl⟩
      | format format => exact getAll_format default format
  | getElementById modeluri elementid shape =>
    exact resolved_iff (initialized (some default)) shape
      (fun _ format => pure (elementRequest "elementid" modeluri elementid format))
      (elementRequest_distinct "elementid" modeluri elementid)
  | getElementByName modeluri elementname shape =>
    exact resolved_iff (initialized (some default)) shape
      (fun _ format => pure (elementRequest "elementname" modeluri elementname format))
      (elementRequest_distinct "elementname" modeluri elementname)
  | create heap modeluri model shape => exact modelRequest_iff (initialized (some default)) shape .post heap modeluri model
  | update heap modeluri model shape => exact modelRequest_iff (initialized (some default)) shape .put heap modeluri model
  | edit modeluri patchOrCommand format =>
    exact ⟨fun _ => trivial, fun _ fuel => editsIn_edit fuel default modeluri patchOrCommand format⟩
  | backendEdit modeluri patchOrCommand format => exact backendEdit_iff default modeluri patchOrCommand format

/-- A lookup with a guard and nothing else asks for no format, not for the default one. -/
theorem get_forgets_default :
    ¬ KeepsFormat plainText (initialized (some FORMAT_JSON_V1)) (.get "SuperBrewer3000.coffee" (.guarded fun _ => true)) := by
  intro keeps
  have requests := Sent.request.inj (Except.ok.inj (Option.some.inj (keeps 0)))
  cases congrArg HttpRequest.format requests

end Formats

end ModelServer.Client
