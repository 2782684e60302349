import ModelServer.Message.Listener

namespace ModelServer.Message
open Js

section Patches

namespace Operations

/-- Nothing behind the first operation of an array goes wrong unseen. -/
def UniformTail (data : Json) : Prop :=
  ∀ first rest, data = .arr (first :: rest) → isOperation first = true → ∀ op ∈ rest, isOperation op = true

theorem isPatch_iff (data : Json) : isPatch data = isJsonPatch data ↔ UniformTail data := by
  cases data with
  | prim p => simp [isPatch, isJsonPatch, isArrayOf, UniformTail]
  | obj props => simp [isPatch, isJsonPatch, isArrayOf, UniformTail]
  | arr elems =>
    cases elems with
    | nil => simp [isPatch, isJsonPatch, isArrayOf, UniformTail]
    | cons first rest =>
      have unfolded : isJsonPatch (.arr (first :: rest)) = (isOperation first && rest.all isOperation) := List.all_cons
      have tail : UniformTail (.arr (first :: rest)) ↔ (isOperation first = true → rest.all isOperation = true) := by
        rw [List.all_eq_true]
        constructor
        · intro uniform
          exact uniform first rest rfl
        · intro uniform first' rest' same
          cases same
          exact uniform
      rw [unfolded, tail, isPatch]
      cases isOperation first with
      | true =>
        rw [Bool.true_and]
        exact ⟨fun same _ => same.symm, fun all => (all rfl).symm⟩
      | false => simp

end Operations

end Patches

section ListenerV2

variable {U : Type}

inductive ListenerCallV2 (U : Type)
  | inherited (call : ListenerCall U)
  | onIncrementalUpdateV2 (modeluri : U) (patch : Json) (type : String)

namespace NotificationSubscriptionListenerV2

def onMessage (lib : Library) (modeluri : U) (event : String) : Outcome (ListenerCallV2 U) :=
  match lib.parse event with
  | .error e => ⟨[], some e⟩
  | .ok json =>
    match ModelServerMessage.read json with
    | some message =>
      match MessageType.asMessageType message.type with
      | .literal .incrementalUpdate => fire do
        let patch ← MessageDataMapper.as message Operations.isPatch
        .ok (.onIncrementalUpdateV2 modeluri patch message.type)
      | _ => (NotificationSubscriptionListener.onMessage lib modeluri event).map .inherited
    | none => ⟨[], none⟩

end NotificationSubscriptionListenerV2

/-- The listener gets the data if all of them are operations, else the call throws and nothing is delivered. -/
def Guarded (lib : Library) (modeluri : U) (event : String) (data : Json) : Prop :=
  if isJsonPatch data then
    NotificationSubscriptionListenerV2.onMessage lib modeluri event =
      ⟨[.onIncrementalUpdateV2 modeluri data MessageType.incrementalUpdate.value], none⟩
  else
    (NotificationSubscriptionListenerV2.onMessage lib modeluri event).fired = [] ∧
      (NotificationSubscriptionListenerV2.onMessage lib modeluri event).thrown ≠ none

theorem value_of_literal {value : String} {type : MessageType} (known : type ≠ .unknown)
    (mapped : MessageType.asMessageType value = .literal type) : value = type.value := by
  rcases asMessageType_cases value with ⟨-, inherited⟩ | ⟨-, ⟨type', rfl, literal⟩ | ⟨-, unknown⟩⟩
  · cases mapped.symm.trans inherited
  · cases mapped.symm.trans literal
    rfl
  · cases mapped.symm.trans unknown
    exact absurd rfl known

variable {lib : Library} {event : String} {data : Json}

theorem onMessage_incremental (update : incrementalData lib event = some data) (modeluri : U) :
    NotificationSubscriptionListenerV2.onMessage lib modeluri event =
      fire (if Operations.isPatch data then
        .ok (.onIncrementalUpdateV2 modeluri data MessageType.incrementalUpdate.value)
      else .error "Cannot map to given type. Given parameter failed the type guard check!") := by
  rcases read_of_incrementalData update with ⟨json, message, parsed, was_read, type, rfl⟩
  have value := value_of_literal (by decide) type
  simp only [NotificationSubscriptionListenerV2.onMessage, parsed, was_read, type, MessageDataMapper.as, asType]
  rw [value]
  cases Operations.isPatch message.data <;> rfl

/-- Only the first element is looked at, so a patch is guarded just where its first operation speaks for all. -/
theorem onMessage_guarded_iff (update : incrementalData lib event = some data) (modeluri : U) :
    (Guarded lib modeluri event data ∧ Operations.isPatch data = isJsonPatch data) ↔ Operations.UniformTail data := by
  rw [← Operations.isPatch_iff]
  refine ⟨fun given => given.2, fun same => ⟨?_, same⟩⟩
  unfold Guarded
  rw [onMessage_incremental update modeluri, same]
  cases isJsonPatch data with
  | true => rfl
  | false => exact ⟨rfl, by simp [fire]⟩

def replaceName : Json :=
  .obj [("op", .prim (.string "replace")), ("path", .prim (.string "/name")), ("value", .prim (.string "Brew"))]

def halfPatch : Json := .arr [replaceName, .obj [("op", .prim (.string "remove"))]]

def halfEvent : String :=
  "\x7b\"type\":\"incrementalUpdate\",\"data\":[\x7b\"op\":\"replace\",\"path\":\"/name\",\"value\":\"Brew\"\x7d,\x7b\"op\":\"remove\"\x7d]\x7d"

def removeNode : Json := .obj [("op", .prim (.string "remove")), ("path", .prim (.string "/nodes/0"))]

def wholePatch : Json := .arr [replaceName, removeNode, removeNode]

def wholeEvent : String :=
  "\x7b\"type\":\"incrementalUpdate\",\"data\":[\x7b\"op\":\"replace\",\"path\":\"/name\",\"value\":\"Brew\"\x7d," ++
    "\x7b\"op\":\"remove\",\"path\":\"/nodes/0\"\x7d,\x7b\"op\":\"remove\",\"path\":\"/nodes/0\"\x7d]\x7d"

def patchLibrary (event : String) (patch : Json) : Library where
  parse text :=
    if text = event then .ok (.obj [("type", .prim (.string "incrementalUpdate")), ("data", patch)])
    else .error "Unexpected token"
  stringify _ := ""
  uriText _ := .error "invalid input"

/-- A patch with a malformed operation in the second place is delivered. -/
theorem onMessage_delivers_malformed :
    NotificationSubscriptionListenerV2.onMessage (patchLibrary halfEvent halfPatch) () halfEvent =
        ⟨[.onIncrementalUpdateV2 () halfPatch "incrementalUpdate"], none⟩ ∧
      isJsonPatch halfPatch = false ∧ ¬ Guarded (patchLibrary halfEvent halfPatch) () halfEvent halfPatch := by
  have delivered : NotificationSubscriptionListenerV2.onMessage (patchLibrary halfEvent halfPatch) () halfEvent =
      ⟨[.onIncrementalUpdateV2 () halfPatch "incrementalUpdate"], none⟩ := by rfl
  have malformed : isJsonPatch halfPatch = false := by rfl
  refine ⟨delivered, malformed, ?_⟩
  intro guarded
  rw [Guarded, malformed, delivered] at guarded
  cases guarded.1

theorem onMessage_guards_wholePatch : Guarded (patchLibrary wholeEvent wholePatch) () wholeEvent wholePatch := by
  have update : incrementalData (patchLibrary wholeEvent wholePatch) wholeEvent = some wholePatch := by
    simp only [incrementalData, patchLibrary, if_true]
    rfl
  refine ((onMessage_guarded_iff update ()).mpr ?_).1
  intro first rest same _ op member
  cases same
  rcases List.mem_pair.mp member with rfl | rfl
  · rfl
  · rfl

end ListenerV2

end ModelServer.Message
