import ModelServer.Commands.CommandModel
import ModelServer.TypeUtil.Encoding

namespace ModelServer.Commands
open Js Message TypeUtil

mutual

/-- `ensureCommandPrototype`, which ends with the prototype of the base class for every command. -/
def ensureCommandPrototype : Value → Except String Value
  | .prim .null => .error "Object.setPrototypeOf called on null or undefined"
  | .prim p => .ok (.prim p)
  | .arr elems => .ok (.arr elems)
  | .obj prototype props =>
    let command := Value.obj prototype props
    if SetCommand.is command.toJson then
      .ok ((command.setPrototypeOf .setCommand).setPrototypeOf .modelServerCommand)
    else if AddCommand.is command.toJson then
      .ok ((command.setPrototypeOf .addCommand).setPrototypeOf .modelServerCommand)
    else if RemoveCommand.is command.toJson then
      .ok ((command.setPrototypeOf .removeCommand).setPrototypeOf .modelServerCommand)
    else if CompoundCommand.is command.toJson then do
      let props ← ensureCommands props
      .ok ((Value.obj .compoundCommand props).setPrototypeOf .modelServerCommand)
    else .ok (command.setPrototypeOf .modelServerCommand)

def ensureCommands : List (String × Value) → Except String (List (String × Value))
  | [] => .ok []
  | (name, value) :: rest =>
    if name = "commands" then do
      let commands ← ensureEach value
      .ok ((name, commands) :: rest)
    else do
      let rest ← ensureCommands rest
      .ok ((name, value) :: rest)

def ensureEach : Value → Except String Value
  | .arr elems => do
    let elems ← ensureElems elems
    .ok (.arr elems)
  | _ => .error "commands.forEach is not a function"

def ensureElems : List Value → Except String (List Value)
  | [] => .ok []
  | e :: rest => do
    let e ← ensureCommandPrototype e
    let rest ← ensureElems rest
    .ok (e :: rest)

end

structure Request where
  modeluri : String
  format : Format
  body : Json

inductive Edited
  | request (request : Request)
  | noOp

def patchMessage (type : String) (data : Json) : Json := .obj [("type", .prim (.string type)), ("data", data)]

def emfcommand : String := "modelserver.emfcommand"

def patchType : String := "modelserver.patch"

def fullPatch : Json → List Json
  | .arr elems => elems
  | patchOrCommand => [patchOrCommand]

def payloadJson (fuel : Nat) (heap : Heap) : Payload → Option Json
  | .text s => some (.prim (.string s))
  | .value v => read fuel heap v

def patchRequest (text : JsonText) (fuel : Nat) (modeluri : String) (format : Format) (message : Json) :
    Exec Edited := do
  let encoder ← MonadExcept.ofExcept (encodeRequestBody text fuel format)
  let (heap, value) := store ⟨[]⟩ message
  let (heap, body) ← encoder heap (.value value)
  let data ← payloadJson fuel heap body.data
  return .request { modeluri, format, body := .obj [("data", data)] }

def ModelServerClientV2.edit (text : JsonText) (fuel : Nat) (defaultFormat : Format) (modeluri : String)
    (patchOrCommand : Value) (format : Option Format) : Exec Edited :=
  if patchOrCommand.instanceofModelServerCommand then
    patchRequest text fuel modeluri (format.getD defaultFormat) (patchMessage emfcommand patchOrCommand.toJson)
  else if (fullPatch patchOrCommand.toJson).isEmpty then return .noOp
  else
    patchRequest text fuel modeluri (format.getD defaultFormat)
      (patchMessage patchType (.arr (fullPatch patchOrCommand.toJson)))

/-- The format is passed on for patches only. -/
def TheiaBackendModelServerClientV2.edit (text : JsonText) (fuel : Nat) (defaultFormat : Format) (modeluri : String)
    (patchOrCommand : Value) (format : Option Format) : Exec Edited :=
  if ModelServerCommand.is patchOrCommand.toJson then do
    let command ← MonadExcept.ofExcept (ensureCommandPrototype patchOrCommand)
    ModelServerClientV2.edit text fuel defaultFormat modeluri command none
  else ModelServerClientV2.edit text fuel defaultFormat modeluri patchOrCommand format

section Commands

theorem ensureCommandPrototype_leaf {prototype : Prototype} {props : List (String × Value)}
    (leaf : CompoundCommand.is (Value.obj prototype props).toJson = false) :
    ensureCommandPrototype (.obj prototype props) = .ok (.obj .modelServerCommand props) := by
  rw [ensureCommandPrototype]
  simp only [leaf, Bool.false_eq_true, if_false]
  split
  · rfl
  · split
    · rfl
    · split <;> rfl

theorem child_of_isText {object : Json} {text propertyKey : String}
    (h : hasProperty (isText text) object propertyKey = true) :
    object.child propertyKey = some (.prim (.string text)) := by
  unfold hasProperty at h
  split at h
  · rename_i value found
    unfold isText at h
    split at h
    · rw [found, of_decide_eq_true h]
    · cases h
  · cases h

theorem not_compoundCommand {object : Json} (command : ModelServerCommand.is object = true) :
    CompoundCommand.is object = false := by
  have other : ModelServerCommand.URI ≠ CompoundCommand.URI := by decide
  simp only [ModelServerCommand.is, Bool.and_eq_true] at command
  have eClass := child_of_isText command.1.2
  simp [CompoundCommand.is, hasProperty, eClass, isText, other]

theorem backendEdit_command {text : JsonText} {fuel : Nat} {defaultFormat : Format} {modeluri : String}
    {patchOrCommand : Value} (command : ModelServerCommand.is patchOrCommand.toJson = true) (format : Option Format) :
    TheiaBackendModelServerClientV2.edit text fuel defaultFormat modeluri patchOrCommand format =
      patchRequest text fuel modeluri defaultFormat (patchMessage emfcommand patchOrCommand.toJson) := by
  have single := not_compoundCommand command
  unfold TheiaBackendModelServerClientV2.edit
  rw [if_pos command]
  cases patchOrCommand with
  | prim p => rw [Value.toJson] at command; cases command
  | arr elems =>
    have noClass : isString (Value.arr elems).toJson "eClass" = false := by
      rw [Value.toJson]
      exact not_hasProperty_arr _ _ (by decide)
    simp [ModelServerCommand.is, ModelServerObject.is, noClass] at command
  | obj prototype props =>
    have restored : (Value.obj .modelServerCommand props).instanceofModelServerCommand = true := rfl
    have written : (Value.obj .modelServerCommand props).toJson = (Value.obj prototype props).toJson := by
      rw [Value.toJson, Value.toJson]
    rw [ensureCommandPrototype_leaf single]
    change ModelServerClientV2.edit text fuel defaultFormat modeluri (.obj .modelServerCommand props) none = _
    rw [ModelServerClientV2.edit, if_pos restored, written]
    rfl

end Commands

section Requests

variable {text : JsonText} {modeluri : String} {message : Json}

theorem patchRequest_spec (text : JsonText) (modeluri : String) {format : JsonFormat} {message result : Json}
    (converts : converted format message = some result) : ∃ need, ∀ fuel, need < fuel → ∃ data,
      patchRequest text fuel modeluri format.name message =
        pure (.request ⟨modeluri, format.name, .obj [("data", data)]⟩) ∧ data.Same result := by
  have means : Means text (store ⟨[]⟩ message).1 (.value (store ⟨[]⟩ message).2) message := (store_spec message _).denotes
  rcases encodeRequestBody_spec text format means with ⟨need, spec⟩
  rcases exists_read result with ⟨need', reads⟩
  refine ⟨max need need', fun fuel enough => ?_⟩
  rcases spec fuel (lt_of_le_of_lt (le_max_left _ _) enough) with ⟨encoder, h, out, found, called, returned⟩
  rw [converts] at returned
  rcases returned with ⟨means', form⟩
  cases out with
  | text s => cases form
  | value v =>
    rcases reads fuel (lt_of_le_of_lt (le_max_right _ _) enough) means' with ⟨data, was_read, denotes⟩
    refine ⟨data, ?_, denotes.same means'⟩
    have first : (MonadExcept.ofExcept (encodeRequestBody text fuel format.name) : Exec _) = pure encoder := by
      rw [found]
      rfl
    have last : (payloadJson fuel h (.value v) : Exec Json) = pure data := by
      rw [payloadJson, was_read]
      rfl
    simp only [patchRequest, first, pure_bind, called, last]

theorem patchRequest_fails {format : Format} (other : ∀ f : JsonFormat, format ≠ f.name) (text : JsonText) (fuel : Nat)
    (modeluri : String) (message : Json) : ∃ e, patchRequest text fuel modeluri format message = throw e := by
  have notV1 : format ≠ FORMAT_JSON_V1 := other .json
  have notV2 : format ≠ FORMAT_JSON_V2 := other .jsonV2
  by_cases xmi : format = FORMAT_XMI
  · subst xmi
    exact ⟨"Attempt to encode non-string as XML", rfl⟩
  · refine ⟨"Unsupported message format: " ++ format, ?_⟩
    have unsupported : encode text fuel format = .error ("Unsupported message format: " ++ format) := by
      rw [encode, if_neg xmi, if_neg notV1, if_neg notV2]
    unfold patchRequest encodeRequestBody
    rw [unsupported]
    rfl

/-- With enough fuel the call sends this body, up to the order of properties. -/
def Sends (call : Nat → Exec Edited) (body : Json) : Prop :=
  ∃ need, ∀ fuel, need < fuel → ∃ request, call fuel = pure (.request request) ∧ request.body.Same body

def bodyOf (data : Json) : Json := .obj [("data", data)]

theorem bodyOf_same {a b : Json} (same : a.Same b) : (bodyOf a).Same (bodyOf b) := by
  refine Json.same_of_children rfl fun name => ?_
  by_cases data : name = "data"
  · subst data
    exact .some same
  · have absent : ∀ j, (bodyOf j).child name = none := by
      intro j
      simp [bodyOf, Json.child, lookup_entry, data]
    rw [absent, absent]
    exact .none

theorem bodyOf_same_iff {a b : Json} : (bodyOf a).Same (bodyOf b) ↔ a.Same b := by
  constructor
  · intro same
    cases same.child "data" with
    | some same => exact same
  · exact bodyOf_same

theorem sends_iff {format : JsonFormat} {result : Json} (converts : converted format message = some result) (body : Json) :
    Sends (fun fuel => patchRequest text fuel modeluri format.name message) body ↔ (bodyOf result).Same body := by
  rcases patchRequest_spec text modeluri converts with ⟨need, spec⟩
  constructor
  · intro sends
    rcases sends with ⟨need', sent⟩
    rcases spec (need + need' + 1) (by omega) with ⟨data, called, same⟩
    rcases sent (need + need' + 1) (by omega) with ⟨request, called', same'⟩
    cases called.symm.trans called'
    exact (bodyOf_same same).symm.trans same'
  · intro same
    refine ⟨need, fun fuel enough => ?_⟩
    rcases spec fuel enough with ⟨data, called, same'⟩
    exact ⟨_, called, (bodyOf_same same').trans same⟩

theorem not_sends {format : Format} (other : ∀ f : JsonFormat, format ≠ f.name) (body : Json) :
    ¬ Sends (fun fuel => patchRequest text fuel modeluri format message) body := by
  intro sends
  rcases sends with ⟨need, sent⟩
  rcases sent (need + 1) (by omega) with ⟨request, called, -⟩
  rcases patchRequest_fails other text (need + 1) modeluri message with ⟨e, failed⟩
  cases failed.symm.trans called

end Requests

end ModelServer.Commands
