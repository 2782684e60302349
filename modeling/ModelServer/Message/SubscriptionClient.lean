import ModelServer.Message.DataMapper

namespace ModelServer.Message
open Js

section Dispatch

variable {U : Type}

/-- What the emitters of `ModelServerSubscriptionClient` fire when a message arrives: one constructor for
    each emitter. -/
inductive Notification (U : Type)
  | onDirtyState (modeluri : U) (isDirty : Bool) (type : MessageType)
  | onSuccess (modeluri : U) (type : MessageType)
  | onError (modeluri : U) (error : String) (type : MessageType)
  | onIncrementalUpdate (modeluri : U) (result : Json) (type : MessageType)
  | onFullUpdate (modeluri : U) (model : Json) (type : MessageType)
  | onValidationResult (modeluri : U) (diagnostic : Json) (type : MessageType)
  | onUnknownMessage (modeluri : U) (rest : List (String × Json))

inductive NotificationV2 (U : Type)
  | inherited (notification : Notification U)
  | onIncrementalUpdateV2 (modeluri : U) (patch : Json) (type : MessageType)

namespace NotificationV2

def inherited? : NotificationV2 U → Option (Notification U)
  | inherited notification => some notification
  | onIncrementalUpdateV2 _ _ _ => none

def added? : NotificationV2 U → Option (U × Json × MessageType)
  | inherited _ => none
  | onIncrementalUpdateV2 modeluri patch type => some (modeluri, patch, type)

end NotificationV2

/-- The notifications fired by a call, in order, and the error that ended it. -/
structure Outcome (N : Type) where
  fired : List N
  thrown : Option String

def Outcome.map {N M : Type} (f : N → M) (outcome : Outcome N) : Outcome M :=
  ⟨outcome.fired.map f, outcome.thrown⟩

/-- The notification is complete before it is fired, so a branch that throws fires nothing. -/
def fire {N : Type} : Except String N → Outcome N
  | .ok notification => ⟨[notification], none⟩
  | .error e => ⟨[], some e⟩

def unknownMessage (modeluri : U) (message : ModelServerMessage) : Notification U :=
  .onUnknownMessage modeluri (remove "modeluri" (spread message.props))

def orString (lib : Library) (message : ModelServerMessage) : Except String Json → Except String Json
  | .ok value => .ok value
  | .error _ => do
    let text ← MessageDataMapper.asString lib message
    .ok (.prim (.string text))

def dispatch (lib : Library) (modeluri : U) (message : ModelServerMessage) : Except String (Notification U) :=
  match MessageType.asMessageType message.type with
  | .literal .dirtyState => .ok (.onDirtyState modeluri (MessageDataMapper.asBoolean message) .dirtyState)
  | .literal .keepAlive => .ok (.onSuccess modeluri .keepAlive)
  | .literal .success => .ok (.onSuccess modeluri .success)
  | .literal .error => do
    let error ← MessageDataMapper.asString lib message
    .ok (.onError modeluri error .error)
  | .literal .incrementalUpdate => do
    let result ← orString lib message (MessageDataMapper.as message CommandExecutionResult.is)
    .ok (.onIncrementalUpdate modeluri result .incrementalUpdate)
  | .literal .fullUpdate => do
    let model ← orString lib message (MessageDataMapper.asObject message)
    .ok (.onFullUpdate modeluri model .fullUpdate)
  | .literal .validationResult => do
    let diagnostic ← MessageDataMapper.as message Diagnostic.is
    .ok (.onValidationResult modeluri diagnostic .validationResult)
  | _ => .ok (unknownMessage modeluri message)

def onMessage (lib : Library) (modeluri : U) (event : String) : Outcome (Notification U) :=
  match lib.parse event with
  | .error e => ⟨[], some e⟩
  | .ok json =>
    match ModelServerMessage.read json with
    | some message => fire (dispatch lib modeluri message)
    | none => ⟨[], none⟩

def superOnMessage (lib : Library) (modeluri : U) (event : String) : Outcome (NotificationV2 U) :=
  (onMessage lib modeluri event).map .inherited

def onMessageV2 (lib : Library) (modeluri : U) (event : String) : Outcome (NotificationV2 U) :=
  match lib.parse event with
  | .error e => ⟨[], some e⟩
  | .ok json =>
    match ModelServerMessage.read json with
    | some message =>
      match MessageType.asMessageType message.type with
      | .literal .incrementalUpdate =>
        match MessageDataMapper.as message Operations.isPatch with
        | .error e => ⟨[], some e⟩
        | .ok patch =>
          let rest := superOnMessage lib modeluri event
          ⟨.onIncrementalUpdateV2 modeluri patch .incrementalUpdate :: rest.fired, rest.thrown⟩
      | _ => superOnMessage lib modeluri event
    | none => superOnMessage lib modeluri event

theorem fire_fails {N : Type} (result : Except String N) :
    (fire result).thrown ≠ none ↔ (fire result).fired = [] := by
  cases result <;> simp [fire]

end Dispatch

section Incremental

variable {U : Type}

def incrementalData (lib : Library) (event : String) : Option Json :=
  match lib.parse event with
  | .error _ => none
  | .ok json =>
    match ModelServerMessage.read json with
    | none => none
    | some message =>
      match MessageType.asMessageType message.type with
      | .literal .incrementalUpdate => some message.data
      | _ => none

theorem onMessageV2_of_other {lib : Library} {event : String} (other : incrementalData lib event = none)
    (modeluri : U) : onMessageV2 lib modeluri event = superOnMessage lib modeluri event := by
  unfold incrementalData at other
  unfold onMessageV2 superOnMessage onMessage
  cases parsed : lib.parse event with
  | error e => rfl
  | ok json =>
    simp only [parsed] at other ⊢
    cases was_read : ModelServerMessage.read json with
    | none => rfl
    | some message =>
      simp only [was_read] at other ⊢
      split
      · rename_i update
        simp only [update, reduceCtorEq] at other
      · rfl

def incrementalUpdate (lib : Library) (modeluri : U) (data : Json) : Except String (Notification U) :=
  if CommandExecutionResult.is data then .ok (.onIncrementalUpdate modeluri data .incrementalUpdate)
  else (asString lib data).map fun text => .onIncrementalUpdate modeluri (.prim (.string text)) .incrementalUpdate

theorem read_of_incrementalData {lib : Library} {event : String} {data : Json}
    (h : incrementalData lib event = some data) :
    ∃ json message, lib.parse event = .ok json ∧ ModelServerMessage.read json = some message ∧
      MessageType.asMessageType message.type = .literal .incrementalUpdate ∧ message.data = data := by
  unfold incrementalData at h
  cases parsed : lib.parse event with
  | error e => simp [parsed] at h
  | ok json =>
    simp only [parsed] at h
    cases was_read : ModelServerMessage.read json with
    | none => simp [was_read] at h
    | some message =>
      simp only [was_read] at h
      split at h
      · exact ⟨json, message, rfl, was_read, ‹_›, Option.some.inj h⟩
      · cases h

theorem onMessage_of_incremental {lib : Library} {event : String} {data : Json}
    (h : incrementalData lib event = some data) (modeluri : U) :
    onMessage lib modeluri event = fire (incrementalUpdate lib modeluri data) := by
  rcases read_of_incrementalData h with ⟨json, message, parsed, was_read, update, rfl⟩
  have branch : dispatch lib modeluri message = incrementalUpdate lib modeluri message.data := by
    simp only [dispatch, update, incrementalUpdate, MessageDataMapper.as, asType]
    cases CommandExecutionResult.is message.data with
    | true => rfl
    | false =>
      simp only [Bool.false_eq_true, if_false, orString, MessageDataMapper.asString]
      cases asString lib message.data <;> rfl
  simp only [onMessage, parsed, was_read, branch]

theorem onMessageV2_of_patch {lib : Library} {event : String} {data : Json}
    (h : incrementalData lib event = some data) (patch : Operations.isPatch data = true) (modeluri : U) :
    onMessageV2 lib modeluri event =
      ⟨.onIncrementalUpdateV2 modeluri data .incrementalUpdate :: (superOnMessage lib modeluri event).fired,
        (superOnMessage lib modeluri event).thrown⟩ := by
  rcases read_of_incrementalData h with ⟨json, message, parsed, was_read, update, rfl⟩
  simp only [onMessageV2, parsed, was_read, update, MessageDataMapper.as, asType, patch, if_true]

theorem onMessageV2_of_not_patch {lib : Library} {event : String} {data : Json}
    (h : incrementalData lib event = some data) (refused : Operations.isPatch data = false) (modeluri : U) :
    (onMessageV2 lib modeluri event).fired = [] ∧ (onMessageV2 lib modeluri event).thrown ≠ none := by
  rcases read_of_incrementalData h with ⟨json, message, parsed, was_read, update, rfl⟩
  simp [onMessageV2, parsed, was_read, update, MessageDataMapper.as, asType, refused]

theorem inherited_super (lib : Library) (modeluri : U) (event : String) :
    (superOnMessage lib modeluri event).fired.filterMap NotificationV2.inherited? = (onMessage lib modeluri event).fired := by
  have each : (NotificationV2.inherited? ∘ NotificationV2.inherited : Notification U → _) = some := rfl
  rw [superOnMessage, Outcome.map, List.filterMap_map, each, List.filterMap_some]

theorem added_super (lib : Library) (modeluri : U) (event : String) :
    (superOnMessage lib modeluri event).fired.filterMap NotificationV2.added? = [] := by
  simp [superOnMessage, Outcome.map, NotificationV2.added?]

theorem incrementalUpdate_fails (lib : Library) (modeluri : U) (data : Json) :
    (fire (incrementalUpdate lib modeluri data)).fired = [] ↔
      CommandExecutionResult.is data = false ∧ Unreadable lib data := by
  rw [← asString_fails]
  unfold incrementalUpdate
  cases CommandExecutionResult.is data with
  | true => simp [fire]
  | false => cases asString lib data <;> simp [fire, Except.map]

end Incremental

section Substitution

variable {U : Type}

def isJsonPatch (data : Json) : Bool := isArrayOf Operations.isOperation data

/-- The V2 client stands in for the one it extends: it fires the same notifications on the inherited
    emitters, adds one for a JSON patch, and throws only when the other does. -/
structure StandsIn (lib : Library) (modeluri : U) (event : String) : Prop where
  inherited : (onMessageV2 lib modeluri event).fired.filterMap NotificationV2.inherited? =
    (onMessage lib modeluri event).fired
  added : (onMessageV2 lib modeluri event).fired.filterMap NotificationV2.added? =
    ((incrementalData lib event).filter isJsonPatch).toList.map fun patch => (modeluri, patch, .incrementalUpdate)
  thrown : (onMessageV2 lib modeluri event).thrown ≠ none → (onMessage lib modeluri event).thrown ≠ none

theorem standsIn_of_patch {lib : Library} {event : String} {data : Json}
    (h : incrementalData lib event = some data) (patch : Operations.isPatch data = true) (modeluri : U) :
    StandsIn lib modeluri event ↔ isJsonPatch data = true := by
  have run := onMessageV2_of_patch h patch modeluri
  have fired : (onMessageV2 lib modeluri event).fired.filterMap NotificationV2.added? =
      [(modeluri, data, .incrementalUpdate)] := by
    rw [run, List.filterMap_cons, added_super]
    rfl
  constructor
  · intro same
    have added := same.added
    by_contra other
    rw [fired, h, Option.filter_some, if_neg other] at added
    cases added
  · intro operations
    refine ⟨?_, ?_, ?_⟩
    · rw [run, List.filterMap_cons, inherited_super]
      rfl
    · rw [fired, h, Option.filter_some, if_pos operations]
      rfl
    · rw [run]
      exact id

theorem standsIn_of_not_patch {lib : Library} {event : String} {data : Json}
    (h : incrementalData lib event = some data) (refused : Operations.isPatch data = false) (modeluri : U) :
    StandsIn lib modeluri event ↔ CommandExecutionResult.is data = false ∧ Unreadable lib data := by
  rcases onMessageV2_of_not_patch h refused modeluri with ⟨silent, threw⟩
  have plain := onMessage_of_incremental h modeluri
  rw [← incrementalUpdate_fails lib modeluri data]
  constructor
  · intro same
    rw [← plain, ← same.inherited, silent, List.filterMap_nil]
  · intro nothing
    refine ⟨?_, ?_, ?_⟩
    · rw [silent, plain, nothing, List.filterMap_nil]
    · have other : ¬ isJsonPatch data = true := by
        simp [isJsonPatch, Operations.not_operations_of_not_isPatch refused]
      rw [silent, h, Option.filter_some, if_neg other]
      rfl
    · intro _
      rw [plain]
      exact (fire_fails _).mpr nothing

/-- The V2 client stands in for every event but an incremental update whose data are no JSON patch, unless
    these data make the other client throw as well. -/
theorem onMessageV2_stands_in_iff (lib : Library) (modeluri : U) (event : String) :
    StandsIn lib modeluri event ↔
      ∀ data, incrementalData lib event = some data →
        isJsonPatch data = true ∨
          (Operations.isPatch data = false ∧ CommandExecutionResult.is data = false ∧ Unreadable lib data) := by
  cases update : incrementalData lib event with
  | none =>
    have run := onMessageV2_of_other update modeluri
    have same : StandsIn lib modeluri event := by
      refine ⟨?_, ?_, ?_⟩
      · rw [run, inherited_super]
      · rw [run, added_super, update]
        rfl
      · rw [run]
        exact id
    simp [same]
  | some data =>
    simp only [Option.some.injEq, forall_eq']
    cases patch : Operations.isPatch data with
    | true => simp [standsIn_of_patch update patch]
    | false =>
      have other : isJsonPatch data = false := Operations.not_operations_of_not_isPatch patch
      simp [standsIn_of_not_patch update patch, other]

def xmiUpdate : Json :=
  .obj [("type", .prim (.string "incrementalUpdate")), ("data", .prim (.string "<xmi/>"))]

def xmiEvent : String := "\x7b\"type\":\"incrementalUpdate\",\"data\":\"<xmi/>\"\x7d"

def xmiLibrary : Library where
  parse text := if text = xmiEvent then .ok xmiUpdate else .error "Unexpected token"
  stringify _ := ""
  uriText _ := .error "invalid input"

/-- The text of an incremental update in XMI is delivered by the first client only. -/
theorem onMessageV2_refuses_text :
    (onMessage xmiLibrary () xmiEvent).fired =
        [.onIncrementalUpdate () (.prim (.string "<xmi/>")) .incrementalUpdate] ∧
      (onMessage xmiLibrary () xmiEvent).thrown = none ∧
      (onMessageV2 xmiLibrary () xmiEvent).fired = [] ∧
      (onMessageV2 xmiLibrary () xmiEvent).thrown ≠ none ∧ ¬ StandsIn xmiLibrary () xmiEvent := by
  have plain : onMessage xmiLibrary () xmiEvent =
      ⟨[.onIncrementalUpdate () (.prim (.string "<xmi/>")) .incrementalUpdate], none⟩ := by rfl
  have update : incrementalData xmiLibrary xmiEvent = some (.prim (.string "<xmi/>")) := by rfl
  rcases onMessageV2_of_not_patch update rfl () with ⟨silent, threw⟩
  refine ⟨by rw [plain], by rw [plain], silent, threw, ?_⟩
  intro same
  have delivered := same.inherited
  rw [silent, plain] at delivered
  cases delivered

end Substitution

end ModelServer.Message
