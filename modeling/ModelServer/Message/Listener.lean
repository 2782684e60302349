import ModelServer.Message.SubscriptionClient

namespace ModelServer.Message
open Js

section Calls

variable {U : Type}

/-- What `NotificationSubscriptionListener` calls when a message arrives: one constructor for each callback. -/
inductive ListenerCall (U : Type)
  | onDirtyStateChanged (modeluri : U) (isDirty : Bool) (type : MessageType)
  | onSuccess (modeluri : U) (type : MessageType)
  | onError (modeluri : U) (error : String) (type : MessageType)
  | onIncrementalUpdate (modeluri : U) (result : Json) (type : MessageType)
  | onFullUpdate (modeluri : U) (model : Json) (type : MessageType)
  | onValidation (modeluri : U) (diagnostic : Json) (type : MessageType)
  | onUnknown (modeluri : U) (rest : List (String × Json))

namespace ListenerCall

def asNotification : ListenerCall U → Notification U
  | onDirtyStateChanged modeluri isDirty type => .onDirtyState modeluri isDirty type
  | onSuccess modeluri type => .onSuccess modeluri type
  | onError modeluri error type => .onError modeluri error type
  | onIncrementalUpdate modeluri result type => .onIncrementalUpdate modeluri result type
  | onFullUpdate modeluri model type => .onFullUpdate modeluri model type
  | onValidation modeluri diagnostic type => .onValidationResult modeluri diagnostic type
  | onUnknown modeluri rest => .onUnknownMessage modeluri rest

end ListenerCall

namespace NotificationSubscriptionListener

def dispatch (lib : Library) (modeluri : U) (message : ModelServerMessage) : Except String (ListenerCall U) :=
  match MessageType.asMessageType message.type with
  | .literal .dirtyState => .ok (.onDirtyStateChanged modeluri (MessageDataMapper.asBoolean message) .dirtyState)
  | .literal .keepAlive => .ok (.onSuccess modeluri .keepAlive)
  | .literal .success => .ok (.onSuccess modeluri .success)
  | .literal .error => do
    let error ← MessageDataMapper.asString lib message
    .ok (.onError modeluri error .error)
  | .literal .incrementalUpdate => do
    let result ← MessageDataMapper.as message CommandExecutionResult.is
    .ok (.onIncrementalUpdate modeluri result .incrementalUpdate)
  | .literal .fullUpdate => do
    let model ← MessageDataMapper.asObject message
    .ok (.onFullUpdate modeluri model .fullUpdate)
  | .literal .validationResult => do
    let diagnostic ← MessageDataMapper.as message Diagnostic.is
    .ok (.onValidation modeluri diagnostic .validationResult)
  | _ => .ok (.onUnknown modeluri (remove "modeluri" (spread message.props)))

def onMessage (lib : Library) (modeluri : U) (event : String) : Outcome (ListenerCall U) :=
  match lib.parse event with
  | .error e => ⟨[], some e⟩
  | .ok json =>
    match ModelServerMessage.read json with
    | some message => fire (dispatch lib modeluri message)
    | none => ⟨[], none⟩

end NotificationSubscriptionListener

def received (lib : Library) (event : String) : Option ModelServerMessage :=
  match lib.parse event with
  | .error _ => none
  | .ok json => ModelServerMessage.read json

/-- The same kinds of notifications with the same payloads, and an error in both or in neither. -/
def SameOutcome (listener : Outcome (ListenerCall U)) (client : Outcome (Notification U)) : Prop :=
  listener.fired.map ListenerCall.asNotification = client.fired ∧ (listener.thrown ≠ none ↔ client.thrown ≠ none)

end Calls

section Outcomes

variable {U : Type} (lib : Library) (modeluri : U)

theorem sameOutcome_fire {listener : Except String (ListenerCall U)} {client : Except String (Notification U)} :
    SameOutcome (fire listener) (fire client) ↔
      (∃ call, listener = .ok call ∧ client = .ok call.asNotification) ∨ ∃ e e', listener = .error e ∧ client = .error e' := by
  cases listener <;> cases client <;> simp [SameOutcome, fire, eq_comm]

theorem sameOutcome_of_map {listener : Except String (ListenerCall U)} {client : Except String (Notification U)}
    (same : client = listener.map ListenerCall.asNotification) : SameOutcome (fire listener) (fire client) := by
  subst same
  cases listener <;> simp [SameOutcome, fire, Except.map]

theorem sameOutcome_fallback (message : ModelServerMessage) (mapped : Except String Json)
    (kind : Json → ListenerCall U) :
    SameOutcome (fire (do let value ← mapped; .ok (kind value)))
        (fire (do let value ← orString lib message mapped; .ok (kind value).asNotification)) ↔
      (∃ value, mapped = .ok value) ∨ Unreadable lib message.data := by
  rw [sameOutcome_fire, ← asString_fails]
  cases mapped with
  | ok value => simp [orString, bind, Except.bind]
  | error e =>
    simp only [orString, MessageDataMapper.asString]
    cases asString lib message.data <;> simp [bind, Except.bind]

theorem asObject_succeeds (message : ModelServerMessage) :
    (∃ value, MessageDataMapper.asObject message = .ok value) ↔ AnyObject.is message.data = true := by
  simp only [MessageDataMapper.asObject, Message.asObject]
  split <;> simp [*]

theorem as_succeeds (message : ModelServerMessage) (guard : Json → Bool) :
    (∃ value, MessageDataMapper.as message guard = .ok value) ↔ guard message.data = true := by
  simp only [MessageDataMapper.as, Message.asType]
  split <;> simp [*]

theorem readable_of_not_object {data : Json} (plain : AnyObject.is data = false) : ¬ Unreadable lib data := by
  cases data with
  | prim p => simp [Unreadable, isURI, isArrayOf, AnyObject.is]
  | arr elems => cases plain
  | obj props => cases plain

def Mappable (lib : Library) (message : ModelServerMessage) : Prop :=
  (MessageType.asMessageType message.type = .literal .incrementalUpdate →
      CommandExecutionResult.is message.data = true ∨ Unreadable lib message.data) ∧
    (MessageType.asMessageType message.type = .literal .fullUpdate → AnyObject.is message.data = true)

theorem sameOutcome_dispatch (message : ModelServerMessage) :
    SameOutcome (fire (NotificationSubscriptionListener.dispatch lib modeluri message))
        (fire (dispatch lib modeluri message)) ↔ Mappable lib message := by
  unfold NotificationSubscriptionListener.dispatch dispatch Mappable
  cases type : MessageType.asMessageType message.type with
  | inherited name =>
    simp only [reduceCtorEq, false_implies, and_self, iff_true]
    exact sameOutcome_of_map rfl
  | literal literal =>
    cases literal with
    | incrementalUpdate =>
      simp only [true_implies, MessageType.Mapped.literal.injEq, reduceCtorEq, false_implies, and_true]
      rw [← as_succeeds]
      exact sameOutcome_fallback lib message _ fun result => .onIncrementalUpdate modeluri result .incrementalUpdate
    | fullUpdate =>
      simp only [true_implies, MessageType.Mapped.literal.injEq, reduceCtorEq, false_implies, true_and]
      have fallback := sameOutcome_fallback lib message (MessageDataMapper.asObject message)
        fun model => .onFullUpdate modeluri model .fullUpdate
      rw [asObject_succeeds] at fallback
      rw [← or_iff_left_of_imp (a := AnyObject.is message.data = true) (b := Unreadable lib message.data)]
      · exact fallback
      · intro unreadable
        by_contra plain
        exact readable_of_not_object lib (by simpa using plain) unreadable
    | error =>
      simp only [MessageType.Mapped.literal.injEq, reduceCtorEq, false_implies, and_self, iff_true]
      apply sameOutcome_of_map
      cases MessageDataMapper.asString lib message <;> rfl
    | validationResult =>
      simp only [MessageType.Mapped.literal.injEq, reduceCtorEq, false_implies, and_self, iff_true]
      apply sameOutcome_of_map
      cases MessageDataMapper.as message Diagnostic.is <;> rfl
    | _ =>
      simp only [MessageType.Mapped.literal.injEq, reduceCtorEq, false_implies, and_self, iff_true]
      exact sameOutcome_of_map rfl

/-- The listener has the outcome of the client, but for updates that only the client delivers as a text. -/
theorem listener_same_outcome_iff (event : String) :
    SameOutcome (NotificationSubscriptionListener.onMessage lib modeluri event) (onMessage lib modeluri event) ↔
      ∀ message, received lib event = some message → Mappable lib message := by
  unfold NotificationSubscriptionListener.onMessage onMessage received
  cases lib.parse event with
  | error e => simp [SameOutcome]
  | ok json =>
    dsimp only
    cases ModelServerMessage.read json with
    | none => simp [SameOutcome]
    | some message => simpa using sameOutcome_dispatch lib modeluri message

/-- The listener refuses an incremental update in XMI, which the client delivers. -/
theorem listener_refuses_text :
    NotificationSubscriptionListener.onMessage xmiLibrary () xmiEvent =
        ⟨[], some "Cannot map to given type. Given parameter failed the type guard check!"⟩ ∧
      onMessage xmiLibrary () xmiEvent =
        ⟨[.onIncrementalUpdate () (.prim (.string "<xmi/>")) .incrementalUpdate], none⟩ ∧
      ¬ SameOutcome (NotificationSubscriptionListener.onMessage xmiLibrary () xmiEvent)
          (onMessage xmiLibrary () xmiEvent) := by
  have refused : NotificationSubscriptionListener.onMessage xmiLibrary () xmiEvent =
      ⟨[], some "Cannot map to given type. Given parameter failed the type guard check!"⟩ := by rfl
  have delivered : onMessage xmiLibrary () xmiEvent =
      ⟨[.onIncrementalUpdate () (.prim (.string "<xmi/>")) .incrementalUpdate], none⟩ := by rfl
  refine ⟨refused, delivered, ?_⟩
  intro same
  rw [refused, delivered] at same
  cases same.1

end Outcomes

section Guards

variable {U : Type}

inductive Field (U : Type)
  | uri (modeluri : U)
  | json (value : Json)

abbrev NotificationObject (U : Type) := List (String × Field U)

namespace Field

def isObject : Field U → Bool
  | uri _ => true
  | json value => AnyObject.is value

def text? : Field U → Option String
  | json (.prim (.string text)) => some text
  | _ => none

end Field

def text (type : MessageType) : Field U := .json (.prim (.string type.value))

def ListenerCall.notification : ListenerCall U → NotificationObject U
  | onDirtyStateChanged modeluri isDirty type =>
    [("modeluri", .uri modeluri), ("isDirty", .json (.prim (.bool isDirty))), ("type", text type)]
  | onSuccess modeluri type => [("modeluri", .uri modeluri), ("type", text type)]
  | onError modeluri error type =>
    [("modeluri", .uri modeluri), ("error", .json (.prim (.string error))), ("type", text type)]
  | onIncrementalUpdate modeluri result type => [("modeluri", .uri modeluri), ("result", .json result), ("type", text type)]
  | onFullUpdate modeluri model type => [("modeluri", .uri modeluri), ("model", .json model), ("type", text type)]
  | onValidation modeluri diagnostic type =>
    [("modeluri", .uri modeluri), ("diagnostic", .json diagnostic), ("type", text type)]
  | onUnknown modeluri rest => ("modeluri", .uri modeluri) :: rest.map fun entry => (entry.1, .json entry.2)

def hasField (test : Field U → Bool) (object : NotificationObject U) (propertyKey : String) : Bool :=
  ((object.lookup propertyKey).map test).getD false

def typeOf (object : NotificationObject U) : Option String := (object.lookup "type").bind Field.text?

def ModelServerNotification.is (object : NotificationObject U) : Bool :=
  hasField Field.isObject object "modeluri" && hasField (fun field => field.text?.isSome) object "type"

def isOfType (type : MessageType) (object : NotificationObject U) : Bool :=
  ModelServerNotification.is object && typeOf object = some type.value

def ErrorNotification.is : NotificationObject U → Bool := isOfType .error

def DirtyStateNotification.is : NotificationObject U → Bool := isOfType .dirtyState

def IncrementalUpdateNotification.is : NotificationObject U → Bool := isOfType .incrementalUpdate

def FullUpdateNotification.is : NotificationObject U → Bool := isOfType .fullUpdate

def ValidationNotification.is : NotificationObject U → Bool := isOfType .validationResult

def UnknownNotification.is (object : NotificationObject U) : Bool :=
  ModelServerNotification.is object && (typeOf object).map MessageType.asMessageType = some (.literal .unknown)

def ListenerCall.guard : ListenerCall U → NotificationObject U → Bool
  | onDirtyStateChanged _ _ _ => DirtyStateNotification.is
  | onSuccess _ _ => ModelServerNotification.is
  | onError _ _ _ => ErrorNotification.is
  | onIncrementalUpdate _ _ _ => IncrementalUpdateNotification.is
  | onFullUpdate _ _ _ => FullUpdateNotification.is
  | onValidation _ _ _ => ValidationNotification.is
  | onUnknown _ _ => UnknownNotification.is

def ListenerCall.isUnknown : ListenerCall U → Bool
  | onUnknown _ _ => true
  | _ => false

/-- `asMessageType` gives the literal of a declared value, and `unknown` for every other string. -/
def MapsExactly (value : String) : Prop :=
  ∃ type, MessageType.asMessageType value = .literal type ∧
    if value ∈ MessageType.literals.map MessageType.value then type.value = value else type = .unknown

structure Agrees (lib : Library) (modeluri : U) (event : String) : Prop where
  once : (NotificationSubscriptionListener.onMessage lib modeluri event).fired.length ≤ 1
  guarded : ∀ call ∈ (NotificationSubscriptionListener.onMessage lib modeluri event).fired,
    call.guard call.notification = true
  unknown : (∃ call ∈ (NotificationSubscriptionListener.onMessage lib modeluri event).fired, call.isUnknown = true) ↔
    ∃ message, received lib event = some message ∧ MessageType.asMessageType message.type = .literal .unknown
  mapped : ∀ message, received lib event = some message → MapsExactly message.type

/-- The types that have no case of their own: those that `in` finds by mistake, and three declared ones. -/
def caseless : List String := MessageType.inheritedNames ++ ["warning", "open", "close"]

theorem asMessageType_cases (value : String) :
    (value ∈ MessageType.inheritedNames ∧ MessageType.asMessageType value = .inherited value) ∨
      (value ∉ MessageType.inheritedNames ∧
        ((∃ type, type.value = value ∧ MessageType.asMessageType value = .literal type) ∨
          (value ∉ MessageType.literals.map MessageType.value ∧ MessageType.asMessageType value = .literal .unknown))) := by
  by_cases declared : value ∈ MessageType.literals.map MessageType.value
  · rcases List.mem_map.mp declared with ⟨type, -, rfl⟩
    refine .inr ⟨?_, .inl ⟨type, rfl, MessageType.asMessageType_value type⟩⟩
    cases type <;> decide
  · have notFound : MessageType.literals.find? (·.value = value) = none := by
      rw [List.find?_eq_none]
      intro type member same
      exact declared (List.mem_map.mpr ⟨type, member, by simpa using same⟩)
    by_cases inherited : value ∈ MessageType.inheritedNames
    · exact .inl ⟨inherited, by simp [MessageType.asMessageType, notFound, inherited]⟩
    · exact .inr ⟨inherited, .inr ⟨declared, by simp [MessageType.asMessageType, notFound, inherited]⟩⟩

theorem mapsExactly_iff (value : String) : MapsExactly value ↔ value ∉ MessageType.inheritedNames := by
  rcases asMessageType_cases value with ⟨inherited, mapped⟩ | ⟨plain, ⟨type, rfl, mapped⟩ | ⟨other, mapped⟩⟩
  · simp [MapsExactly, mapped, inherited]
  · have declared : type.value ∈ MessageType.literals.map MessageType.value := by
      cases type <;> decide
    simp only [plain, not_false_eq_true, iff_true]
    exact ⟨type, mapped, by rw [if_pos declared]⟩
  · simp only [plain, not_false_eq_true, iff_true]
    exact ⟨.unknown, mapped, by rw [if_neg other]⟩

theorem read_type {json : Json} {message : ModelServerMessage} (was_read : ModelServerMessage.read json = some message) :
    message.props.lookup "type" = some (.prim (.string message.type)) := by
  simp only [ModelServerMessage.read] at was_read
  split at was_read
  · rename_i type data found _
    cases was_read
    rw [Json.lookup_entries, found]
  · cases was_read

theorem unknown_is {modeluri : U} {message : ModelServerMessage}
    (typed : message.props.lookup "type" = some (.prim (.string message.type))) :
    UnknownNotification.is (ListenerCall.onUnknown modeluri (remove "modeluri" (spread message.props))).notification =
      decide (MessageType.asMessageType message.type = .literal .unknown) := by
  have rest : ((remove "modeluri" (spread message.props)).map fun entry => (entry.1, (Field.json entry.2 : Field U))).lookup "type" =
      some (.json (.prim (.string message.type))) := by
    have kept : (remove "modeluri" (spread message.props)).lookup "type" = some (.prim (.string message.type)) := by
      rw [lookup_remove, if_neg (by decide), lookup_spread, if_neg (by decide), typed]
    generalize remove "modeluri" (spread message.props) = props at kept
    induction props with
    | nil => cases kept
    | cons entry props ih =>
      rw [lookup_entry] at kept
      rw [List.map_cons, lookup_entry]
      split at kept
      · rename_i here
        rw [if_pos here, Option.some.inj kept]
      · rename_i here
        rw [if_neg here, ih kept]
  simp [UnknownNotification.is, ModelServerNotification.is, hasField, typeOf, ListenerCall.notification, lookup_entry, rest,
    Field.isObject, Field.text?]

def hasCase : MessageType.Mapped → Bool
  | .inherited _ => false
  | .literal type => type ∉ [.warning, .open, .close, .unknown]

variable {lib : Library} {modeluri : U} {message : ModelServerMessage}

theorem dispatch_default (noCase : hasCase (MessageType.asMessageType message.type) = false) :
    NotificationSubscriptionListener.dispatch lib modeluri message =
      .ok (.onUnknown modeluri (remove "modeluri" (spread message.props))) := by
  unfold NotificationSubscriptionListener.dispatch
  cases mapped : MessageType.asMessageType message.type with
  | inherited name => rfl
  | literal type =>
    rw [mapped] at noCase
    cases type <;> first | rfl | cases noCase

theorem dispatch_guarded {call : ListenerCall U} (ofCase : hasCase (MessageType.asMessageType message.type) = true)
    (called : NotificationSubscriptionListener.dispatch lib modeluri message = .ok call) :
    call.isUnknown = false ∧ call.guard call.notification = true := by
  have bound : ∀ {α : Type} {mapped : Except String α} {kind : α → ListenerCall U},
      (do let value ← mapped; .ok (kind value)) = .ok call → ∃ value, kind value = call := by
    intro α mapped kind result
    cases mapped with
    | error e => cases result
    | ok value => exact ⟨value, Except.ok.inj result⟩
  unfold NotificationSubscriptionListener.dispatch at called
  cases mapped : MessageType.asMessageType message.type with
  | inherited name =>
    rw [mapped] at ofCase
    cases ofCase
  | literal type =>
    rw [mapped] at ofCase called
    cases type with
    | warning => cases ofCase
    | «open» => cases ofCase
    | close => cases ofCase
    | unknown => cases ofCase
    | dirtyState => cases called; exact ⟨rfl, rfl⟩
    | keepAlive => cases called; exact ⟨rfl, rfl⟩
    | success => cases called; exact ⟨rfl, rfl⟩
    | error => rcases bound called with ⟨value, rfl⟩; exact ⟨rfl, rfl⟩
    | incrementalUpdate => rcases bound called with ⟨value, rfl⟩; exact ⟨rfl, rfl⟩
    | fullUpdate => rcases bound called with ⟨value, rfl⟩; exact ⟨rfl, rfl⟩
    | validationResult => rcases bound called with ⟨value, rfl⟩; exact ⟨rfl, rfl⟩

theorem fired_fire {N : Type} {result : Except String N} {notification : N} :
    notification ∈ (fire result).fired ↔ result = .ok notification := by
  cases result <;> simp [fire, eq_comm]

theorem length_fire {N : Type} (result : Except String N) : (fire result).fired.length ≤ 1 := by
  cases result <;> simp [fire]

theorem received_cases (lib : Library) (modeluri : U) (event : String) :
    (received lib event = none ∧ (NotificationSubscriptionListener.onMessage lib modeluri event).fired = []) ∨
      ∃ json message, ModelServerMessage.read json = some message ∧ received lib event = some message ∧
        NotificationSubscriptionListener.onMessage lib modeluri event =
          fire (NotificationSubscriptionListener.dispatch lib modeluri message) := by
  unfold received NotificationSubscriptionListener.onMessage
  cases lib.parse event with
  | error e => exact .inl ⟨rfl, rfl⟩
  | ok json =>
    dsimp only
    cases was_read : ModelServerMessage.read json with
    | none => exact .inl ⟨rfl, rfl⟩
    | some message => exact .inr ⟨json, message, was_read, rfl, rfl⟩

theorem mem_caseless_iff (value : String) :
    value ∈ caseless ↔
      value ∈ MessageType.inheritedNames ∨ (hasCase (MessageType.asMessageType value) = false ∧
        MessageType.asMessageType value ≠ .literal .unknown) := by
  rw [caseless, List.mem_append]
  rcases asMessageType_cases value with ⟨inherited, -⟩ | ⟨plain, ⟨type, rfl, mapped⟩ | ⟨other, mapped⟩⟩
  · simp [inherited]
  · simp only [plain, false_or, mapped]
    cases type <;> decide
  · have undeclared : value ∉ ["warning", "open", "close"] := by
      intro member
      apply other
      simp only [List.mem_cons, List.not_mem_nil, or_false] at member
      rcases member with rfl | rfl | rfl <;> decide
    simp [plain, undeclared, mapped]

/-- The dispatch and the guards agree on every event but those whose type `in` finds by mistake or that is
    declared without a case in the switch. -/
theorem agrees_iff (lib : Library) (modeluri : U) (event : String) :
    Agrees lib modeluri event ↔ ∀ message, received lib event = some message → message.type ∉ caseless := by
  rcases received_cases lib modeluri event with ⟨nothing, silent⟩ | ⟨json, message, was_read, given, run⟩
  · simp only [nothing, reduceCtorEq, false_implies, implies_true, iff_true]
    exact ⟨by simp [silent], by simp [silent], by simp [silent, nothing], by simp [nothing]⟩
  · have fired : ∀ call, call ∈ (NotificationSubscriptionListener.onMessage lib modeluri event).fired ↔
        NotificationSubscriptionListener.dispatch lib modeluri message = .ok call := by
      intro call
      rw [run, fired_fire]
    simp only [given, Option.some.injEq, forall_eq', mem_caseless_iff, not_or, not_and, ne_eq, not_not]
    constructor
    · intro agrees
      refine ⟨(mapsExactly_iff _).mp (agrees.mapped message given), ?_⟩
      intro noCase
      have call := (fired _).mpr (@dispatch_default _ lib modeluri message noCase)
      rcases agrees.unknown.mp ⟨_, call, rfl⟩ with ⟨message', given', unknown⟩
      cases given.symm.trans given'
      exact unknown
    · intro condition
      rcases condition with ⟨plain, unknown⟩
      refine ⟨by rw [run]; exact length_fire _, ?_, ?_, ?_⟩
      · intro call member
        cases ofCase : hasCase (MessageType.asMessageType message.type) with
        | true => exact (dispatch_guarded ofCase ((fired call).mp member)).2
        | false =>
          have called := (fired call).mp member
          rw [dispatch_default ofCase] at called
          cases called
          exact (unknown_is (read_type was_read)).trans (by simpa using unknown ofCase)
      · constructor
        · intro given'
          rcases given' with ⟨call, member, isUnknown⟩
          refine ⟨message, given, unknown ?_⟩
          by_contra ofCase
          rw [(dispatch_guarded (by simpa using ofCase) ((fired call).mp member)).1] at isUnknown
          cases isUnknown
        · intro given'
          rcases given' with ⟨message', given', mapped⟩
          cases given.symm.trans given'
          exact ⟨_, (fired _).mpr (dispatch_default (by rw [mapped]; rfl)), rfl⟩
      · intro message' given'
        cases given.symm.trans given'
        exact (mapsExactly_iff _).mpr plain

def inheritedMessage : Json := .obj [("type", .prim (.string "toString")), ("data", .prim .null)]

def inheritedEvent : String := "\x7b\"type\":\"toString\",\"data\":null\x7d"

def inheritedLibrary : Library where
  parse text := if text = inheritedEvent then .ok inheritedMessage else .error "Unexpected token"
  stringify _ := ""
  uriText _ := .error "invalid input"

/-- A message whose type is the name of an inherited function is passed on as unknown, which its guard denies. -/
theorem inherited_type_disagrees :
    NotificationSubscriptionListener.onMessage inheritedLibrary () inheritedEvent =
        ⟨[.onUnknown () [("type", .prim (.string "toString")), ("data", .prim .null)]], none⟩ ∧
      MessageType.asMessageType "toString" = .inherited "toString" ∧
      UnknownNotification.is (ListenerCall.onUnknown ()
        [("type", .prim (.string "toString")), ("data", .prim .null)]).notification = false ∧
      ¬ Agrees inheritedLibrary () inheritedEvent := by
  refine ⟨by rfl, by decide, by decide, ?_⟩
  intro agrees
  have mapped := agrees.mapped ⟨"toString", .prim .null, [("type", .prim (.string "toString")), ("data", .prim .null)]⟩ rfl
  rw [mapsExactly_iff] at mapped
  exact mapped (by decide)

end Guards

end ModelServer.Message
