import ModelServer.Js.Conversion
import ModelServer.Js.Edit
import ModelServer.Message.ListenerV2
import ModelServer.Message.Printing

namespace ModelServer.Message
open Js Relations

section Guards

variable {a b : Json}

theorem hasProperty_same {test : Json → Bool} (shapes : ∀ {c d : Json}, c.shape = d.shape → test c = test d) (same : a.Same b)
    (propertyKey : String) : hasProperty test a propertyKey = hasProperty test b propertyKey := by
  rw [hasProperty, hasProperty]
  have related := same.child propertyKey
  cases found : a.child propertyKey <;> cases found' : b.child propertyKey <;> rw [found, found'] at related
  · cases related
  · cases related
  · cases related with
    | some below => exact shapes below.shape

theorem anyObject_shape (same : a.shape = b.shape) : AnyObject.is a = AnyObject.is b := by
  cases a <;> cases b <;> first | rfl | cases same

theorem isString_same (same : a.Same b) (propertyKey : String) : isString a propertyKey = isString b propertyKey := by
  refine hasProperty_same (fun {c d} shapes => ?_) same propertyKey
  cases c <;> cases d <;> simp_all [Json.shape, isStringValue]

theorem isNumber_same (same : a.Same b) (propertyKey : String) : isNumber a propertyKey = isNumber b propertyKey := by
  refine hasProperty_same (fun {c d} shapes => ?_) same propertyKey
  cases c <;> cases d <;> simp_all [Json.shape, isNumberValue]

theorem isArray_same (same : a.Same b) (propertyKey : String) : isArray a propertyKey = isArray b propertyKey := by
  refine hasProperty_same (fun {c d} shapes => ?_) same propertyKey
  cases c <;> cases d <;> first | rfl | cases shapes

theorem isOperation_same (same : a.Same b) : Operations.isOperation a = Operations.isOperation b := by
  rw [Operations.isOperation, Operations.isOperation, anyObject_shape same.shape, isString_same same, isString_same same]

theorem diagnostic_same (same : a.Same b) : Diagnostic.is a = Diagnostic.is b := by
  simp only [Diagnostic.is, anyObject_shape same.shape, isNumber_same same, isString_same same, isArray_same same]

theorem elements_same {elems : List Json} (same : a.Same (.arr elems)) :
    ∃ elems', a = .arr elems' ∧ List.Forall₂ Json.Same elems' elems := by
  have shape := same.shape
  cases a with
  | prim p => cases shape
  | obj props => cases shape
  | arr elems' =>
    have length : elems'.length = elems.length := Shape.arr.inj shape
    refine ⟨elems', rfl, List.forall₂_iff_get.mpr ⟨length, fun i inside inside' => ?_⟩⟩
    have related := same.child (indexName i)
    simp only [Json.child, indexOf_indexName, Option.bind_some, List.getElem?_eq_getElem inside,
      List.getElem?_eq_getElem inside'] at related
    cases related with
    | some below => exact below

theorem isJsonPatch_same (same : a.Same b) : isJsonPatch a = isJsonPatch b := by
  cases b with
  | prim p =>
    have shape := same.shape
    cases a <;> first | rfl | cases shape
  | obj props =>
    have shape := same.shape
    cases a <;> first | rfl | cases shape
  | arr elems =>
    rcases elements_same same with ⟨elems', rfl, each⟩
    simp only [isJsonPatch, isArrayOf]
    clear same
    induction each with
    | nil => rfl
    | cons here _ ih => rw [List.all_cons, List.all_cons, isOperation_same here, ih]

end Guards

section Printed

variable {lib : Library}

def message (type : MessageType) (data : Json) : Json := .obj [("type", .prim (.string type.value)), ("data", data)]

theorem parse_message (faithful : lib.Faithful) (type : MessageType) (data : Json) :
    ∃ json data', lib.parse (lib.stringify (message type data)) = .ok json ∧
      json.child "type" = some (.prim (.string type.value)) ∧ json.child "data" = some data' ∧ data'.Same data := by
  rcases faithful.parse_stringify (message type data) with ⟨json, parsed, same⟩
  rcases exists_of_rel (same.child "type") with ⟨name, at_type, name_same⟩
  rcases exists_of_rel (same.child "data") with ⟨data', at_data, below⟩
  have shape := name_same.shape
  cases name with
  | arr elems => cases shape
  | obj props => cases shape
  | prim p =>
    cases shape
    exact ⟨json, data', parsed, at_type, at_data, below⟩

theorem received_message (faithful : lib.Faithful) (type : MessageType) (data : Json) :
    ∃ m, received lib (lib.stringify (message type data)) = some m ∧ m.type = type.value ∧ m.data.Same data := by
  rcases parse_message faithful type data with ⟨json, data', parsed, at_type, at_data, same⟩
  exact ⟨⟨type.value, data', json.entries⟩, by simp [received, parsed, ModelServerMessage.read, at_type, at_data], rfl, same⟩

theorem value_injective : Function.Injective MessageType.value := by
  intro type other same
  have mapped := MessageType.asMessageType_value type
  rw [same, MessageType.asMessageType_value] at mapped
  exact (MessageType.Mapped.literal.inj mapped).symm

end Printed

section Receivers

variable {U α : Type}

/-- The listener at the socket, or the client that fires the emitters of a frontend. -/
inductive Receiver
  | notificationSubscriptionListenerV2
  | modelServerSubscriptionClientV2

def Receiver.observed (ofCall : ListenerCallV2 U → Option α) (ofNotification : NotificationV2 U → Option α) (lib : Library)
    (modeluri : U) (event : String) : Receiver → List α
  | notificationSubscriptionListenerV2 => (NotificationSubscriptionListenerV2.onMessage lib modeluri event).fired.filterMap ofCall
  | modelServerSubscriptionClientV2 => (onMessageV2 lib modeluri event).fired.filterMap ofNotification

end Receivers

section Received

variable {U : Type} {lib : Library} {event : String} {m : ModelServerMessage} (modeluri : U)

theorem incrementalData_received (came : received lib event = some m) :
    incrementalData lib event = if m.type = MessageType.incrementalUpdate.value then some m.data else none := by
  unfold received at came
  unfold incrementalData
  cases parsed : lib.parse event with
  | error e => simp [parsed] at came
  | ok json =>
    simp only [parsed] at came
    simp only [came]
    split
    · rw [if_pos (value_of_literal (by decide) ‹_›)]
    · rename_i other
      rw [if_neg]
      intro same
      rw [same, MessageType.asMessageType_value] at other
      exact other rfl

theorem onMessage_received (came : received lib event = some m) :
    NotificationSubscriptionListener.onMessage lib modeluri event =
        fire (NotificationSubscriptionListener.dispatch lib modeluri m) ∧
      onMessage lib modeluri event = fire (dispatch lib modeluri m) := by
  unfold received at came
  cases parsed : lib.parse event with
  | error e => simp [parsed] at came
  | ok json =>
    simp only [parsed] at came
    simp only [NotificationSubscriptionListener.onMessage, onMessage, parsed, came, and_self]

theorem onMessageV2_other (came : received lib event = some m) (type : m.type ≠ MessageType.incrementalUpdate.value) :
    NotificationSubscriptionListenerV2.onMessage lib modeluri event =
        (fire (NotificationSubscriptionListener.dispatch lib modeluri m)).map .inherited ∧
      onMessageV2 lib modeluri event = (fire (dispatch lib modeluri m)).map .inherited := by
  rcases onMessage_received modeluri came with ⟨listened, fired⟩
  have update := incrementalData_received came
  rw [if_neg type] at update
  refine ⟨?_, by rw [onMessageV2_of_other update, superOnMessage, fired]⟩
  rw [← listened]
  unfold received at came
  cases parsed : lib.parse event with
  | error e => simp [parsed] at came
  | ok json =>
    simp only [parsed] at came
    simp only [NotificationSubscriptionListenerV2.onMessage, parsed, came]
    split
    · rename_i mapped
      exact absurd (value_of_literal (by decide) mapped) type
    · rfl

theorem observed_unread {α : Type} (unread : received lib event = none) (ofCall : ListenerCallV2 U → Option α)
    (ofNotification : NotificationV2 U → Option α) (receiver : Receiver) :
    receiver.observed ofCall ofNotification lib modeluri event = [] := by
  have silent : (NotificationSubscriptionListenerV2.onMessage lib modeluri event).fired = [] ∧
      (onMessageV2 lib modeluri event).fired = [] := by
    unfold received at unread
    cases parsed : lib.parse event <;>
      simp_all [NotificationSubscriptionListenerV2.onMessage, onMessageV2, superOnMessage, onMessage, Outcome.map]
  cases receiver with
  | notificationSubscriptionListenerV2 => rw [Receiver.observed, silent.1, List.filterMap_nil]
  | modelServerSubscriptionClientV2 => rw [Receiver.observed, silent.2, List.filterMap_nil]

end Received

section Typed

variable {U : Type} {lib : Library} {m : ModelServerMessage} {type : MessageType} (modeluri : U)

/-- The type of message that fires a notification: a success is fired for two types, an unknown message for the rest. -/
def Notification.type? : Notification U → Option MessageType
  | onDirtyState _ _ _ => some .dirtyState
  | onSuccess _ type => some type
  | onError _ _ _ => some .error
  | onIncrementalUpdate _ _ _ => some .incrementalUpdate
  | onFullUpdate _ _ _ => some .fullUpdate
  | onValidationResult _ _ _ => some .validationResult
  | onUnknownMessage _ _ => none

theorem client_type {notification : Notification U} (dispatched : dispatch lib modeluri m = .ok notification)
    (typed : notification.type? = some type) : m.type = type.value := by
  unfold dispatch at dispatched
  split at dispatched
  iterate 3
    · cases dispatched
      cases typed
      exact value_of_literal (by decide) ‹_›
  iterate 4
    · rcases bind_eq_ok.mp dispatched with ⟨_, -, same⟩
      cases same
      cases typed
      exact value_of_literal (by decide) ‹_›
  · cases dispatched
    cases typed

/-- What the listener is called with, the client fires as well. -/
theorem dispatch_of_listener {call : ListenerCall U}
    (dispatched : NotificationSubscriptionListener.dispatch lib modeluri m = .ok call) :
    dispatch lib modeluri m = .ok call.asNotification := by
  unfold NotificationSubscriptionListener.dispatch at dispatched
  unfold dispatch
  revert dispatched
  generalize MessageType.asMessageType m.type = mapped
  intro dispatched
  cases mapped with
  | inherited name =>
    cases dispatched
    rfl
  | literal type =>
    cases type with
    | error | incrementalUpdate | fullUpdate | validationResult =>
      rcases bind_eq_ok.mp dispatched with ⟨value, found, same⟩
      cases same
      simp only [found, orString]
      rfl
    | _ =>
      cases dispatched
      rfl

end Typed

end ModelServer.Message
