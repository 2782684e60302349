import ModelServer.Client.Replies
import ModelServer.Diagnostics.MarkerRuns
import ModelServer.Diagnostics.Received
import ModelServer.Message.Transport
import Mathlib.Data.List.Forall2

namespace ModelServer.DiagnosticManager
open Js DiagnosticAdapter Message Runs Relations

section Alike

/-- Diagnostics without children that differ in the order of properties of their data and exception only. -/
structure Alike (d d' : Diagnostic) : Prop where
  severity : d.severity = d'.severity
  message : d.message = d'.message
  source : d.source = d'.source
  code : d.code = d'.code
  id : d.id = d'.id
  exception : Option.Rel Json.Same d.exception d'.exception
  data : List.Forall₂ Json.Same d.data d'.data
  children : d.children = d'.children

structure AlikeMarkers (m m' : LangServerDiagnostic) : Prop where
  severity : m.severity = m'.severity
  message : m.message = m'.message
  source : m.source = m'.source
  code : m.code = m'.code
  id : m.id = m'.id
  exception : Option.Rel Json.Same m.exception m'.exception
  data : List.Forall₂ Json.Same m.data m'.data
  children : m.children = m'.children
  range : m.range = m'.range
  relatedInformation : m.relatedInformation = m'.relatedInformation

theorem AlikeMarkers.refl (m : LangServerDiagnostic) : AlikeMarkers m m := by
  refine ⟨rfl, rfl, rfl, rfl, rfl, ?_, ?_, rfl, rfl, rfl⟩
  · cases m.exception with
    | none => exact .none
    | some e => exact .some (.refl e)
  · exact List.forall₂_same.mpr fun e _ => .refl e

theorem converted_alike {d d' : Diagnostic} (alike : Alike d d') :
    Option.Rel AlikeMarkers (emfToLangServerDiagnostic d) (emfToLangServerDiagnostic d') := by
  have label : d.getSeverityLabel = d'.getSeverityLabel := by
    rw [Diagnostic.getSeverityLabel, Diagnostic.getSeverityLabel, alike.severity]
  have range : ModelElementRange.create d.id = ModelElementRange.create d'.id := by rw [alike.id]
  simp only [emfToLangServerDiagnostic, label]
  cases d'.getSeverityLabel with
  | CANCEL => exact .none
  | _ => exact .some ⟨rfl, alike.message, alike.source, alike.code, alike.id, alike.exception, alike.data, alike.children,
      range, rfl⟩

theorem markers_alike {leaves leaves' : List Diagnostic} (alike : List.Forall₂ Alike leaves leaves') (owner : String) :
    List.Forall₂ AlikeMarkers ((leaves.filter fun d => d.id = owner).filterMap emfToLangServerDiagnostic)
      ((leaves'.filter fun d => d.id = owner).filterMap emfToLangServerDiagnostic) := by
  have filtered : List.Forall₂ Alike (leaves.filter fun d => d.id = owner) (leaves'.filter fun d => d.id = owner) := by
    refine List.rel_filter ?_ alike
    intro d d' here
    simp only [here.id]
  refine List.rel_filterMap ?_ filtered
  intro d d' here
  exact converted_alike here

end Alike

section Leaves

def leaf? (leaf : Json) : Option Diagnostic :=
  match leaf.child "severity", leaf.child "message", leaf.child "source", leaf.child "code", leaf.child "data",
    leaf.child "children", leaf.child "id" with
  | some (.prim (.number severity)), some (.prim (.string message)), some (.prim (.string source)),
    some (.prim (.number code)), some (.arr data), some (.arr []), some (.prim (.string id)) =>
    some { severity, message, source, code, exception := leaf.child "exception", data, children := [], id }
  | _, _, _, _, _, _, _ => none

variable {convert : Conversions} {leaf : Json} {d : Diagnostic}

theorem child_prim (same : leaf.Same (Message.Diagnostic.ofDiagnostic d)) {key : String} {p : Prim}
    (holds : (Message.Diagnostic.ofDiagnostic d).child key = some (.prim p)) : leaf.child key = some (.prim p) := by
  have related := same.child key
  rw [holds] at related
  rcases exists_of_rel related with ⟨c, found, below⟩
  have shape := below.shape
  cases c with
  | arr elems => cases shape
  | obj props => cases shape
  | prim q =>
    cases shape
    exact found

theorem child_arr (same : leaf.Same (Message.Diagnostic.ofDiagnostic d)) {key : String} {elems : List Json}
    (holds : (Message.Diagnostic.ofDiagnostic d).child key = some (.arr elems)) :
    ∃ elems', leaf.child key = some (.arr elems') ∧ List.Forall₂ Json.Same elems' elems := by
  have related := same.child key
  rw [holds] at related
  rcases exists_of_rel related with ⟨c, found, below⟩
  rcases elements_same below with ⟨elems', rfl, each⟩
  exact ⟨elems', found, each⟩

theorem fields_ofDiagnostic (d : Diagnostic) :
    (Message.Diagnostic.ofDiagnostic d).child "message" = some (.prim (.string d.message)) ∧
      (Message.Diagnostic.ofDiagnostic d).child "source" = some (.prim (.string d.source)) ∧
      (Message.Diagnostic.ofDiagnostic d).child "code" = some (.prim (.number d.code)) ∧
      (Message.Diagnostic.ofDiagnostic d).child "data" = some (.arr d.data) ∧
      (Message.Diagnostic.ofDiagnostic d).child "id" = some (.prim (.string d.id)) ∧
      (Message.Diagnostic.ofDiagnostic d).child "exception" = d.exception := by
  cases d with
  | mk severity message source code exception data children id =>
    rw [Message.Diagnostic.ofDiagnostic]
    refine ⟨rfl, rfl, rfl, rfl, rfl, ?_⟩
    cases exception <;> rfl

theorem leaf_received (same : leaf.Same (Message.Diagnostic.ofDiagnostic d)) (childless : d.children = []) :
    ∃ d', leaf? leaf = some d' ∧ Alike d' d := by
  rcases fields_ofDiagnostic d with ⟨message, source, code, data, id, exception⟩
  rcases Message.Diagnostic.child_ofDiagnostic d with ⟨children, severity⟩
  rcases child_arr same data with ⟨data', at_data, data_same⟩
  rcases child_arr same children with ⟨children', at_children, children_same⟩
  rw [childless] at children_same
  cases children_same
  have exceptions := same.child "exception"
  rw [exception] at exceptions
  have reads : leaf? leaf = some { d with exception := leaf.child "exception", data := data', children := [] } := by
    simp only [leaf?, child_prim same severity, child_prim same message, child_prim same source, child_prim same code, at_data,
      at_children, child_prim same id]
  exact ⟨_, reads, rfl, rfl, rfl, rfl, rfl, exceptions, data_same, childless.symm⟩

def LeavesReceived (convert : Conversions) (d : Diagnostic) : Prop :=
  ∀ {j : Json}, j.Same (Message.Diagnostic.ofDiagnostic d) → ∃ leaves ds, Message.Diagnostic.collectLeaves convert j = .ok leaves ∧
    leaves.mapM leaf? = some ds ∧ List.Forall₂ Alike ds d.collectLeaves

theorem collectEach_received {ds : List Diagnostic} (each : ∀ d ∈ ds, LeavesReceived convert d) :
    ∀ {elems : List Json}, List.Forall₂ Json.Same elems (ds.map Message.Diagnostic.ofDiagnostic) →
      ∃ lists leaves, Message.Diagnostic.collectEach convert elems = .ok lists ∧ lists.flatten.mapM leaf? = some leaves ∧
        List.Forall₂ Alike leaves (ds.flatMap Diagnostic.collectLeaves) := by
  induction ds with
  | nil =>
    intro elems same
    cases same
    exact ⟨[], [], rfl, rfl, .nil⟩
  | cons d rest ih =>
    intro elems same
    rcases List.forall_mem_cons.mp each with ⟨first, later⟩
    rw [List.map_cons] at same
    cases same with
    | cons here tail =>
      rcases first here with ⟨leaves, ds, collected, reads, alike⟩
      rcases ih later tail with ⟨lists, ds', collected', reads', alike'⟩
      refine ⟨leaves :: lists, ds ++ ds', ?_, ?_, List.rel_append alike alike'⟩
      · simp only [Message.Diagnostic.collectEach, collected, collected', bind, Except.bind]
      · simp [List.mapM_append, reads, reads']

theorem leaves_received (convert : Conversions) (d : Diagnostic) : LeavesReceived convert d := by
  induction d using Diagnostic.child_induct with
  | step d ih =>
    intro j same
    rcases Message.Diagnostic.child_ofDiagnostic d with ⟨children, severity⟩
    rcases child_arr same children with ⟨elems, at_children, each⟩
    rw [Message.Diagnostic.collectLeaves_some at_children]
    cases below : d.children with
    | nil =>
      rw [below] at each
      cases each
      have compared : Message.Diagnostic.ofLeaf convert j = .ok (if 0 < d.severity then [j] else []) := by
        rw [Message.Diagnostic.ofLeaf, child_prim same severity, isPositive_number]
        simp [bind, Except.bind]
      rw [Message.Diagnostic.leavesOf, compared, Diagnostic.collectLeaves_leaf below]
      by_cases positive : 0 < d.severity
      · rcases leaf_received same below with ⟨d', reads, alike⟩
        exact ⟨[j], [d'], by rw [if_pos positive], by simp [reads], by simpa [positive] using alike⟩
      · exact ⟨[], [], by rw [if_neg positive], rfl, by simp [positive]⟩
    | cons first rest =>
      rcases collectEach_received ih each with ⟨lists, leaves, collected, reads, alike⟩
      have inner : d.children ≠ [] := by simp [below]
      rw [below] at each
      cases each with
      | @cons e _ es _ here tail =>
        have joined := Diagnostic.foldl_concat lists
        refine ⟨lists.flatten, leaves, ?_, reads, ?_⟩
        · simp only [Message.Diagnostic.leavesOf, collected, bind, Except.bind, joined]
        · rwa [Diagnostic.collectLeaves_inner inner]

end Leaves

section Published

variable {S U : Type} {lib : Library}

/-- How axios hands over a body: one that is no JSON stays a text. -/
def answer (lib : Library) (text : String) : Client.RequestOutcome :=
  match lib.parse text with
  | .ok body => .reply ⟨some body⟩
  | .error _ => .reply ⟨some (.prim (.string text))⟩

/-- What comes from the server, as far as the diagnostics of a model are concerned: the notification of a subscriber or
    the reply to `validate` with a diagnostic, events that bring none or one that the guard refuses, and requests that
    `validate` rejects. -/
inductive Validation (lib : Library)
  | notification (diagnostic : Diagnostic) (codes : ∀ node ∈ diagnostic.nodes, node.HasIntegerCode)
  | reply (type : MessageType) (successful : type ≠ .error) (diagnostic : Diagnostic)
      (codes : ∀ node ∈ diagnostic.nodes, node.HasIntegerCode)
  | other (event : String) (quiet : ∀ message, received lib event = some message →
      message.type = MessageType.validationResult.value → Message.Diagnostic.is message.data = false)
  | failure (request : Client.RequestOutcome) (error : Client.Thrown)
      (rejected : Client.ModelServerClientV2.settled lib .validate request = .error error)

namespace Validation

def diagnostic? : Validation lib → Option Diagnostic
  | notification diagnostic _ => some diagnostic
  | reply _ _ diagnostic _ => some diagnostic
  | other _ _ => none
  | failure _ _ _ => none

end Validation

def diagnosticOfCall : ListenerCallV2 U → Option Json
  | .inherited (.onValidation _ diagnostic _) => some diagnostic
  | _ => none

def diagnosticOfNotification : NotificationV2 U → Option Json
  | .inherited (.onValidationResult _ diagnostic _) => some diagnostic
  | _ => none

def validations (lib : Library) (modeluri : U) (event : String) (receiver : Receiver) : List Json :=
  receiver.observed diagnosticOfCall diagnosticOfNotification lib modeluri event

def validated (lib : Library) (request : Client.RequestOutcome) : List Json :=
  match Client.ModelServerClientV2.settled lib .validate request with
  | .ok (.json diagnostic) => [diagnostic]
  | _ => []

def Validation.handed (modeluri : U) (receiver : Receiver) : Validation lib → List Json
  | notification diagnostic _ =>
    validations lib modeluri (lib.stringify (message .validationResult (Message.Diagnostic.ofDiagnostic diagnostic))) receiver
  | reply type _ diagnostic _ =>
    validated lib (answer lib (lib.stringify (message type (Message.Diagnostic.ofDiagnostic diagnostic))))
  | other event _ => validations lib modeluri event receiver
  | failure request _ _ => validated lib request

variable (convert : Conversions) (manager : ProblemManager S U) (isLangServerDiagnostic : LangServerDiagnostic → Bool)

/-- `setDiagnostic` on a value that was received, as long as its leaves are diagnostics. -/
def setReceived (s : S) (modeluri : U) (diagnostic : Json) : Option S := do
  let leaves ← (Message.Diagnostic.collectLeaves convert diagnostic).toOption
  let leaves ← leaves.mapM leaf?
  some (setDiagnosticLeaves manager isLangServerDiagnostic s modeluri leaves)

def onValidation (receiver : Receiver) (s : S) (came : U × Validation lib) : Option S :=
  (came.2.handed came.1 receiver).foldlM
    (fun s diagnostic => setReceived convert manager isLangServerDiagnostic s came.1 diagnostic) s

def lastValidation [DecidableEq U] (came : List (U × Validation lib)) (modeluri : U) : Option Diagnostic :=
  (lastTouching (fun c uri => c.1 = uri ∧ c.2.diagnostic?.isSome) came modeluri).bind (·.2.diagnostic?)

end Published

section Observed

variable {U : Type} {lib : Library} {event : String} {m : ModelServerMessage} (modeluri : U)

theorem validations_result (came : received lib event = some m) (type : m.type = MessageType.validationResult.value)
    (guarded : Message.Diagnostic.is m.data = true) (receiver : Receiver) :
    validations lib modeluri event receiver = [m.data] := by
  have notIncremental : m.type ≠ MessageType.incrementalUpdate.value := by
    rw [type]
    exact value_injective.ne (by decide)
  rcases onMessageV2_other modeluri came notIncremental with ⟨listened, fired⟩
  cases receiver with
  | notificationSubscriptionListenerV2 =>
    rw [validations, Receiver.observed, listened, NotificationSubscriptionListener.dispatch, type, MessageType.asMessageType_value]
    simp [MessageDataMapper.as, asType, guarded, bind, Except.bind, fire, Outcome.map, diagnosticOfCall]
  | modelServerSubscriptionClientV2 =>
    rw [validations, Receiver.observed, fired, dispatch, type, MessageType.asMessageType_value]
    simp [MessageDataMapper.as, asType, guarded, bind, Except.bind, fire, Outcome.map, diagnosticOfNotification]

theorem guarded_of_validated {uri : U} {diagnostic : Json} {type : MessageType}
    (dispatched : dispatch lib modeluri m = .ok (.onValidationResult uri diagnostic type)) :
    m.type = MessageType.validationResult.value ∧ Message.Diagnostic.is m.data = true := by
  have sent := client_type modeluri dispatched rfl
  refine ⟨sent, ?_⟩
  rw [dispatch, sent, MessageType.asMessageType_value] at dispatched
  rcases bind_eq_ok.mp dispatched with ⟨data, read, -⟩
  cases guarded : Message.Diagnostic.is m.data with
  | true => rfl
  | false =>
    rw [MessageDataMapper.as, asType, guarded] at read
    cases read

theorem validations_quiet (came : received lib event = some m)
    (quiet : m.type = MessageType.validationResult.value → Message.Diagnostic.is m.data = false) (receiver : Receiver) :
    validations lib modeluri event receiver = [] := by
  have update := incrementalData_received came
  by_cases incremental : m.type = MessageType.incrementalUpdate.value
  · rw [if_pos incremental] at update
    cases receiver with
    | notificationSubscriptionListenerV2 =>
      rw [validations, Receiver.observed, onMessage_incremental update]
      split <;> rfl
    | modelServerSubscriptionClientV2 =>
      rw [validations, Receiver.observed]
      cases patch : Operations.isPatch m.data with
      | true =>
        rw [onMessageV2_of_patch update patch, superOnMessage, onMessage_of_incremental update, incrementalUpdate]
        split
        · rfl
        · cases asString lib m.data <;> rfl
      | false =>
        rw [(onMessageV2_of_not_patch update patch modeluri).1]
        rfl
  · rcases onMessageV2_other modeluri came incremental with ⟨listened, fired⟩
    cases receiver with
    | notificationSubscriptionListenerV2 =>
      rw [validations, Receiver.observed, listened]
      cases dispatched : NotificationSubscriptionListener.dispatch lib modeluri m with
      | error e => rfl
      | ok call =>
        cases call with
        | onValidation uri diagnostic type' =>
          rcases guarded_of_validated modeluri (dispatch_of_listener modeluri dispatched) with ⟨type, guarded⟩
          cases guarded.symm.trans (quiet type)
        | _ => rfl
    | modelServerSubscriptionClientV2 =>
      rw [validations, Receiver.observed, fired]
      cases dispatched : dispatch lib modeluri m with
      | error e => rfl
      | ok notification =>
        cases notification with
        | onValidationResult uri diagnostic type' =>
          rcases guarded_of_validated modeluri dispatched with ⟨type, guarded⟩
          cases guarded.symm.trans (quiet type)
        | _ => rfl

theorem validated_reply (faithful : lib.Faithful) {type : MessageType} (successful : type ≠ .error) {data : Json}
    (diagnostic : Message.Diagnostic.is data = true) :
    ∃ data', validated lib (answer lib (lib.stringify (message type data))) = [data'] ∧ data'.Same data := by
  rcases parse_message faithful type data with ⟨json, data', parsed, at_type, at_data, same⟩
  have object := Client.is_of_child at_data
  have typed : Client.hasErrorType json = false := by
    simp only [Client.hasErrorType, hasProperty, at_type, isText]
    exact decide_eq_false (value_injective.ne successful)
  have settled : Client.ModelServerClientV2.settled lib .validate (answer lib (lib.stringify (message type data))) =
      .ok (.json data') := by
    rw [answer, parsed, Client.ModelServerClientV2.settled, Client.process_ok_iff]
    refine ⟨json, rfl, (Client.isErrorType_eq_false object).mpr typed, ?_⟩
    have guarded := (diagnostic_same same).trans diagnostic
    simp [Client.ModelServerClientV2.mapper, Client.MessageDataMapper.as, Client.dataOf, at_data, asType, guarded, Client.orThrow,
      Except.mapError, bind, Except.bind, pure, Except.pure]
  exact ⟨data', by rw [validated, settled], same⟩

end Observed

section Markers

variable {S U : Type} {lib : Library} (convert : Conversions) {manager : ProblemManager S U}
  {isLangServerDiagnostic : LangServerDiagnostic → Bool}

/-- The markers of an owner that a diagnostic stands for: its childless problems that are not cancelled, in order. -/
def markersOf (diagnostic : Diagnostic) (owner : String) : List LangServerDiagnostic :=
  (diagnostic.nodes.filter (shown owner)).filterMap emfToLangServerDiagnostic

theorem filterMap_leaves (d : Diagnostic) (owner : String) :
    (d.collectLeaves.filter fun leaf => leaf.id = owner).filterMap emfToLangServerDiagnostic = markersOf d owner := by
  have cancelled : ∀ leaves : List Diagnostic, (leaves.filter fun leaf => leaf.getSeverityLabel ≠ .CANCEL).filterMap
      emfToLangServerDiagnostic = leaves.filterMap emfToLangServerDiagnostic := by
    intro leaves
    rw [List.filterMap_filter]
    refine List.filterMap_congr fun leaf _ => ?_
    have converts := emfToLangServerDiagnostic_isSome leaf
    by_cases here : leaf.getSeverityLabel = .CANCEL
    · simp_all
    · simp [here]
  have nodes := leaves_shown [d] owner
  simp only [List.flatMap_singleton] at nodes
  rw [markersOf, ← nodes, cancelled]

structure Shows (manager : ProblemManager S U) (s s' : S) (came : U × Validation lib) : Prop where
  shown : ∀ diagnostic, came.2.diagnostic? = some diagnostic → ∀ owner,
    List.Forall₂ AlikeMarkers (manager.markers s' came.1 owner) (markersOf diagnostic owner)
  kept : ∀ uri owner, came.2.diagnostic? = none ∨ uri ≠ came.1 → manager.markers s' uri owner = manager.markers s uri owner

theorem codes_alike {ds ds' : List Diagnostic} (alike : List.Forall₂ Alike ds ds') (codes : ∀ d ∈ ds', d.HasIntegerCode) :
    ∀ d ∈ ds, d.HasIntegerCode := by
  induction alike with
  | nil => exact fun d member => by cases member
  | @cons d d' rest rest' here _ ih =>
    rcases List.forall_mem_cons.mp codes with ⟨first, later⟩
    refine List.forall_mem_cons.mpr ⟨?_, ih later⟩
    rwa [Diagnostic.HasIntegerCode, here.code]

theorem setReceived_shows (lawful : manager.Lawful) (takes : TakesConverted isLangServerDiagnostic) (s : S) (modeluri : U)
    {diagnostic : Diagnostic} (codes : ∀ node ∈ diagnostic.nodes, node.HasIntegerCode) {j : Json}
    (same : j.Same (Message.Diagnostic.ofDiagnostic diagnostic)) :
    ∃ s', setReceived convert manager isLangServerDiagnostic s modeluri j = some s' ∧
      (∀ owner, List.Forall₂ AlikeMarkers (manager.markers s' modeluri owner) (markersOf diagnostic owner)) ∧
      ∀ uri owner, uri ≠ modeluri → manager.markers s' uri owner = manager.markers s uri owner := by
  rcases leaves_received convert diagnostic same with ⟨leaves, ds, collected, reads, alike⟩
  refine ⟨setDiagnosticLeaves manager isLangServerDiagnostic s modeluri ds, ?_, ?_, ?_⟩
  · simp [setReceived, collected, reads, Except.toOption]
  · intro owner
    rw [markers_setDiagnosticLeaves lawful takes s modeluri (codes_alike alike (codes_collectLeaves codes)), ← filterMap_leaves]
    exact markers_alike alike owner
  · intro uri owner other
    exact markers_setDiagnosticLeaves_other lawful s other ds owner

theorem handed_spec (faithful : lib.Faithful) (modeluri : U) (receiver : Receiver) (came : Validation lib) :
    match came.diagnostic? with
    | some diagnostic => (∀ node ∈ diagnostic.nodes, node.HasIntegerCode) ∧
      ∃ j, came.handed modeluri receiver = [j] ∧ j.Same (Message.Diagnostic.ofDiagnostic diagnostic)
    | none => came.handed modeluri receiver = [] := by
  cases came with
  | notification diagnostic codes =>
    rcases received_message faithful .validationResult (Message.Diagnostic.ofDiagnostic diagnostic) with ⟨m, read, type, same⟩
    have guarded := (diagnostic_same same).trans (Message.Diagnostic.is_ofDiagnostic diagnostic)
    exact ⟨codes, m.data, validations_result modeluri read type guarded receiver, same⟩
  | reply type successful diagnostic codes =>
    exact ⟨codes, validated_reply faithful successful (Message.Diagnostic.is_ofDiagnostic diagnostic)⟩
  | other event quiet =>
    cases read : received lib event with
    | none => exact observed_unread modeluri read _ _ receiver
    | some m => exact validations_quiet modeluri read (quiet m read) receiver
  | failure request error rejected =>
    simp only [Validation.diagnostic?, Validation.handed, validated, rejected]

theorem onValidation_shows (faithful : lib.Faithful) (lawful : manager.Lawful) (takes : TakesConverted isLangServerDiagnostic)
    (receiver : Receiver) (s : S) (came : U × Validation lib) :
    ∃ s', onValidation convert manager isLangServerDiagnostic receiver s came = some s' ∧ Shows manager s s' came := by
  have handed := handed_spec faithful came.1 receiver came.2
  cases sent : came.2.diagnostic? with
  | none =>
    rw [sent] at handed
    have nothing : came.2.handed came.1 receiver = [] := handed
    refine ⟨s, by rw [onValidation, nothing]; rfl, ?_, fun _ _ _ => rfl⟩
    intro diagnostic given
    cases sent.symm.trans given
  | some diagnostic =>
    rw [sent] at handed
    rcases handed with ⟨codes, j, one, same⟩
    rcases setReceived_shows convert lawful takes s came.1 codes same with ⟨s', result, shown, kept⟩
    refine ⟨s', by simp [onValidation, one, result], ?_, ?_⟩
    · intro diagnostic' given
      cases sent.symm.trans given
      exact shown
    · intro uri owner other
      rcases other with nothing | other
      · cases sent.symm.trans nothing
      · exact kept uri owner other

theorem codes_checkedNodes : ∀ node ∈ checkedNodes.nodes, node.HasIntegerCode := by
  intro node below
  have all : checkedNodes.nodes = [checkedNodes, emptyName, cancelledCheck, longName] := by rfl
  rw [all] at below
  refine ⟨0, ?_⟩
  simp only [List.mem_cons, List.not_mem_nil, or_false] at below
  rcases below with rfl | rfl | rfl | rfl <;> rfl

theorem codes_longName : ∀ node ∈ longName.nodes, node.HasIntegerCode := by
  intro node below
  have single : longName.nodes = [longName] := by rfl
  rw [single] at below
  cases List.mem_singleton.mp below
  exact ⟨0, rfl⟩

def timedOut : Client.RequestOutcome := .failed { message := "timeout of 1000ms exceeded", code := none, response := none }

def refusedValidation : String := textLibrary.stringify (message .validationResult (.prim (.bool true)))

theorem quiet_refusedValidation (m : ModelServerMessage) (came : received textLibrary refusedValidation = some m)
    (_ : m.type = MessageType.validationResult.value) : Message.Diagnostic.is m.data = false := by
  rcases received_message faithful_textLibrary .validationResult (.prim (.bool true)) with ⟨m', came', -, same⟩
  cases came.symm.trans came'
  exact diagnostic_same same

def validationsOfTrees : List (String × Validation textLibrary) :=
  [("a.tree", .reply .success (by decide) checkedNodes codes_checkedNodes),
    ("a.tree", .notification longName codes_longName),
    ("a.tree", .other refusedValidation quiet_refusedValidation),
    ("b.tree", .reply .success (by decide) checkedNodes codes_checkedNodes),
    ("a.tree", .failure timedOut _ rfl)]

end Markers

end ModelServer.DiagnosticManager
