import ModelServer.Message.DataMapper

namespace ModelServer.Client
open Js Message

structure AxiosResponse where
  data : Option Json

structure AxiosError where
  message : String
  code : Option String
  response : Option AxiosResponse

/-- How a request of the REST client ends. A body may be undefined. -/
inductive RequestOutcome
  | reply (response : AxiosResponse)
  | failed (error : AxiosError)

inductive Thrown
  | modelServerError (message : String) (code : Option String)
  | other (message : String)

def isTruthy : Json → Bool
  | .prim .null => false
  | .prim (.bool b) => b
  | .prim (.number n) => n ≠ 0
  | .prim (.string s) => s ≠ ""
  | .arr _ => true
  | .obj _ => true

variable (lib : Library)

def ModelServerError.text (response : Json) : Except String String :=
  match response with
  | .prim (.string message) => .ok message
  | _ =>
    match response.child "data" with
    | some data => asString lib data
    | none => .ok ""

/-- What is thrown by `throw new ModelServerError(..)`: the construction may throw itself. -/
def ModelServerError.create (response : Json) (code : Option String) : Thrown :=
  match ModelServerError.text lib response with
  | .ok message => .modelServerError message code
  | .error e => .other e

def AxiosError.body (error : AxiosError) : Option Json := error.response.bind AxiosResponse.data

def caught (error : AxiosError) : Thrown :=
  match error.body.filter isTruthy with
  | some data => ModelServerError.create lib data error.code
  | none => .modelServerError error.message error.code

def isErrorType : Option Json → Except Thrown Bool
  | none => .error (.other "Cannot read properties of undefined (reading 'type')")
  | some (.prim .null) => .error (.other "Cannot read properties of null (reading 'type')")
  | some data => .ok (hasProperty (isText MessageType.error.value) data "type")

section Methods

variable {T : Type}

namespace ModelServerClient

def processGeneric (request : RequestOutcome) (mapper : Option Json → Except Thrown T)
    (errorResponse : Option Json → Except Thrown (Option Thrown)) : Except Thrown T :=
  match request with
  | .reply response => do
    let modelServerError ← errorResponse response.data
    match modelServerError with
    | some error => .error error
    | none => mapper response.data
  | .failed error => .error (caught lib error)

def errorResponse (data : Option Json) : Except Thrown (Option Thrown) := do
  let isError ← isErrorType data
  .ok (if isError then data.map fun body => ModelServerError.create lib body none else none)

def process (request : RequestOutcome) (mapper : Option Json → Except Thrown T) : Except Thrown T :=
  processGeneric lib request mapper (errorResponse lib)

def processMessageAsData (request : RequestOutcome) : Except Thrown (Option Json) :=
  processGeneric lib request .ok fun _ => .ok none

end ModelServerClient

def ModelServerClientV2.process (request : RequestOutcome) (mapper : Option Json → Except Thrown T) : Except Thrown T :=
  match request with
  | .reply response => do
    let isError ← isErrorType response.data
    match response.data, isError with
    | some body, true => .error (ModelServerError.create lib body none)
    | _, _ => mapper response.data
  | .failed error => .error (caught lib error)

end Methods

section Reports

def hasErrorType (body : Json) : Bool := hasProperty (isText MessageType.error.value) body "type"

def HasText (body : Json) (message : String) : Prop :=
  ∃ data, body.child "data" = some data ∧ asString lib data = .ok message

def rejection {T : Type} : Except Thrown T → Option Thrown
  | .error thrown => some thrown
  | .ok _ => none

structure ReportedFailure (error : AxiosError) (rejected : Option Thrown) : Prop where
  answered : ∀ body, error.body = some body → ModelServerMessage.is body = true →
    ∃ message, HasText lib body message ∧ rejected = some (.modelServerError message error.code)
  unanswered : (∀ body, error.body = some body → ModelServerMessage.is body = false) →
    rejected = some (.modelServerError error.message error.code)
  nonEmpty : error.message ≠ "" → ∀ message code, rejected = some (.modelServerError message code) → message ≠ ""

def Reported (request : RequestOutcome) (rejected : Option Thrown) : Prop :=
  match request with
  | .reply ⟨none⟩ => True
  | .reply ⟨some body⟩ => hasErrorType body = true →
    ∃ message, HasText lib body message ∧ rejected = some (.modelServerError message none)
  | .failed error => ReportedFailure lib error rejected

def ReadsAs (body : Json) (message : String) : Prop :=
  body = .prim (.string message) ∨
    (isStringValue body = false ∧ (HasText lib body message ∨ (body.child "data" = none ∧ message = "")))

/-- A body that is no message is falsy or reads like the message of the axios error, and one that is a message has
    a string form that is only empty if the axios error says nothing either. -/
def ReportableFailure (error : AxiosError) : Prop :=
  ∀ body, error.body = some body → isTruthy body = true →
    if ModelServerMessage.is body then ∃ message, HasText lib body message ∧ (message = "" → error.message = "")
    else ReadsAs lib body error.message

def Reportable : RequestOutcome → Prop
  | .reply ⟨none⟩ => True
  | .reply ⟨some body⟩ => hasErrorType body = true → ∃ message, HasText lib body message
  | .failed error => ReportableFailure lib error

variable {lib} {T : Type}

theorem text_iff (body : Json) (message : String) :
    ModelServerError.text lib body = .ok message ↔ ReadsAs lib body message := by
  by_cases text : isStringValue body = true
  · cases body with
    | arr elems => cases text
    | obj props => cases text
    | prim p =>
      cases p with
      | string s => simp [ModelServerError.text, ReadsAs, isStringValue]
      | null => cases text
      | bool b => cases text
      | number n => cases text
  · have unfolded : ModelServerError.text lib body =
        match body.child "data" with
        | some data => asString lib data
        | none => .ok "" := by
      unfold ModelServerError.text
      split
      · exact absurd rfl text
      · rfl
    have noText : body ≠ .prim (.string message) := by
      intro same
      subst same
      exact text rfl
    rw [unfolded]
    cases found : body.child "data" with
    | none => simp [ReadsAs, noText, text, HasText, found, eq_comm]
    | some data => simp [ReadsAs, noText, text, HasText, found]

theorem create_iff (body : Json) (message : String) (code code' : Option String) :
    ModelServerError.create lib body code = .modelServerError message code' ↔ ReadsAs lib body message ∧ code = code' := by
  rw [← text_iff, ModelServerError.create]
  cases ModelServerError.text lib body <;> simp

theorem readsAs_of_hasText {body : Json} {message : String} (text : HasText lib body message) :
    ReadsAs lib body message := by
  rcases text with ⟨data, found, printed⟩
  cases body with
  | prim p => cases found
  | arr elems => exact .inr ⟨rfl, .inl ⟨data, found, printed⟩⟩
  | obj props => exact .inr ⟨rfl, .inl ⟨data, found, printed⟩⟩

theorem create_of_hasText {body : Json} {message : String} (text : HasText lib body message) (code : Option String) :
    ModelServerError.create lib body code = .modelServerError message code :=
  (create_iff body message code code).mpr ⟨readsAs_of_hasText text, rfl⟩

theorem isTruthy_of_message {body : Json} (valid : ModelServerMessage.is body = true) : isTruthy body = true := by
  cases body with
  | prim p => cases valid
  | arr elems => rfl
  | obj props => rfl

theorem caught_body {error : AxiosError} {body : Json} (found : error.body = some body) (isTrue : isTruthy body = true) :
    caught lib error = ModelServerError.create lib body error.code := by
  have kept : error.body.filter isTruthy = some body := by
    rw [found, Option.filter_some, if_pos isTrue]
  rw [caught, kept]

theorem caught_message {error : AxiosError} (nothing : ∀ body, error.body = some body → isTruthy body = false) :
    caught lib error = .modelServerError error.message error.code := by
  have dropped : error.body.filter isTruthy = none := by
    rw [Option.filter_eq_none_iff]
    intro body found
    simp [nothing body found]
  rw [caught, dropped]

theorem answered_iff {error : AxiosError} {body : Json} (found : error.body = some body)
    (valid : ModelServerMessage.is body = true) :
    ReportedFailure lib error (some (ModelServerError.create lib body error.code)) ↔
      ∃ message, HasText lib body message ∧ (message = "" → error.message = "") := by
  constructor
  · intro reported
    rcases reported.answered body found valid with ⟨message, text, rejected⟩
    refine ⟨message, text, ?_⟩
    intro empty
    by_contra spoken
    exact reported.nonEmpty spoken message _ rejected empty
  · intro given
    rcases given with ⟨message, text, quiet⟩
    rw [create_of_hasText text]
    refine ⟨?_, ?_, ?_⟩
    · intro body' found' _
      cases found.symm.trans found'
      exact ⟨message, text, rfl⟩
    · intro invalid
      rw [invalid body found] at valid
      cases valid
    · intro spoken message' code rejected empty
      cases rejected
      exact spoken (quiet empty)

theorem reported_message {error : AxiosError} (invalid : ∀ body, error.body = some body → ModelServerMessage.is body = false) :
    ReportedFailure lib error (some (.modelServerError error.message error.code)) := by
  refine ⟨?_, fun _ => rfl, ?_⟩
  · intro body found valid
    rw [invalid body found] at valid
    cases valid
  · intro spoken message code rejected
    cases rejected
    exact spoken

theorem reportedFailure_iff (error : AxiosError) :
    ReportedFailure lib error (some (caught lib error)) ↔ ReportableFailure lib error := by
  by_cases given : ∃ body, error.body = some body ∧ isTruthy body = true
  · rcases given with ⟨body, found, isTrue⟩
    have condition : ReportableFailure lib error ↔
        if ModelServerMessage.is body then ∃ message, HasText lib body message ∧ (message = "" → error.message = "")
        else ReadsAs lib body error.message := by
      simp [ReportableFailure, found, isTrue]
    rw [caught_body found isTrue, condition]
    cases valid : ModelServerMessage.is body with
    | true => exact answered_iff found valid
    | false =>
      have invalid : ∀ body', error.body = some body' → ModelServerMessage.is body' = false := by
        intro body' found'
        cases found.symm.trans found'
        exact valid
      constructor
      · intro reported
        exact ((create_iff body _ _ _).mp (Option.some.inj (reported.unanswered invalid))).1
      · intro same
        rw [(create_iff body error.message error.code error.code).mpr ⟨same, rfl⟩]
        exact reported_message invalid
  · have nothing : ∀ body, error.body = some body → isTruthy body = false := by
      intro body found
      by_contra isTrue
      exact given ⟨body, found, by simpa using isTrue⟩
    rw [caught_message nothing]
    refine iff_of_true (reported_message ?_) ?_
    · intro body found
      by_contra valid
      exact given ⟨body, found, isTruthy_of_message (by simpa using valid)⟩
    · intro body found isTrue
      exact absurd ⟨body, found, isTrue⟩ given

theorem process_same (request : RequestOutcome) (mapper : Option Json → Except Thrown T) :
    ModelServerClient.process lib request mapper = ModelServerClientV2.process lib request mapper := by
  cases request with
  | failed error => rfl
  | reply response =>
    rcases response with ⟨data⟩
    simp only [ModelServerClient.process, ModelServerClient.processGeneric, ModelServerClient.errorResponse,
      ModelServerClientV2.process]
    cases data with
    | none => rfl
    | some body =>
      cases isErrorType (some body) with
      | error e => rfl
      | ok isError => cases isError <;> rfl

theorem isErrorType_of_has {body : Json} (typed : hasErrorType body = true) : isErrorType (some body) = .ok true := by
  have object := is_of_hasProperty typed
  cases body with
  | prim p => cases object
  | arr elems => exact congrArg Except.ok typed
  | obj props => exact congrArg Except.ok typed

theorem reported_process_iff (request : RequestOutcome) (mapper : Option Json → Except Thrown T) :
    Reported lib request (rejection (ModelServerClientV2.process lib request mapper)) ↔ Reportable lib request := by
  cases request with
  | failed error => exact reportedFailure_iff error
  | reply response =>
    rcases response with ⟨data⟩
    cases data with
    | none => exact Iff.rfl
    | some body =>
      refine imp_congr_right fun typed => ?_
      have thrown : ModelServerClientV2.process lib (.reply ⟨some body⟩) mapper =
          .error (ModelServerError.create lib body none) := by
        simp only [ModelServerClientV2.process, isErrorType_of_has typed]
        rfl
      rw [thrown]
      constructor
      · intro given
        rcases given with ⟨message, text, -⟩
        exact ⟨message, text⟩
      · intro given
        rcases given with ⟨message, text⟩
        exact ⟨message, text, congrArg some (create_of_hasText text none)⟩

theorem reported_processMessageAsData_iff (request : RequestOutcome) :
    Reported lib request (rejection (ModelServerClient.processMessageAsData lib request)) ↔
      Reportable lib request ∧ ∀ body, request = .reply ⟨some body⟩ → hasErrorType body = false := by
  cases request with
  | failed error =>
    simp only [reduceCtorEq, false_implies, implies_true, and_true]
    exact reportedFailure_iff error
  | reply response =>
    rcases response with ⟨data⟩
    cases data with
    | none => simp [Reported, Reportable]
    | some body =>
      have resolved : rejection (ModelServerClient.processMessageAsData lib (.reply ⟨some body⟩)) = none := rfl
      rw [resolved]
      cases typed : hasErrorType body <;> simp [Reported, Reportable, typed]

/-- Failures are reported as documented just where the request can be reported by what the code looks at. -/
theorem process_reported_iff (lib : Library) (request : RequestOutcome) (mapper : Option Json → Except Thrown T) :
    (Reported lib request (rejection (ModelServerClient.process lib request mapper)) ∧
        Reported lib request (rejection (ModelServerClientV2.process lib request mapper)) ↔ Reportable lib request) ∧
      (Reported lib request (rejection (ModelServerClient.processMessageAsData lib request)) ↔
        Reportable lib request ∧ ∀ body, request = .reply ⟨some body⟩ → hasErrorType body = false) := by
  rw [process_same, and_self_iff]
  exact ⟨reported_process_iff request mapper, reported_processMessageAsData_iff request⟩

def badGateway : AxiosError where
  message := "Request failed with status code 502"
  code := some "ERR_BAD_RESPONSE"
  response := some ⟨some (.obj [("error", .prim (.string "Bad Gateway"))])⟩

def plainLibrary : Library where
  parse _ := .error "Unexpected token"
  stringify _ := "\x7b\x7d"
  uriText _ := .error "invalid input"

/-- A failure whose body has no data is reported without a message. -/
theorem process_silences_failure :
    ModelServerClientV2.process plainLibrary (.failed badGateway) (fun _ => .ok ()) =
        .error (.modelServerError "" (some "ERR_BAD_RESPONSE")) ∧
      ¬ Reported plainLibrary (.failed badGateway)
        (rejection (ModelServerClientV2.process plainLibrary (.failed badGateway) fun _ => .ok ())) := by
  have thrown : ModelServerClientV2.process plainLibrary (.failed badGateway) (fun _ => .ok ()) =
      .error (.modelServerError "" (some "ERR_BAD_RESPONSE")) := by rfl
  refine ⟨thrown, ?_⟩
  intro reported
  rw [thrown] at reported
  exact reported.nonEmpty (by decide) "" _ rfl rfl

end Reports

end ModelServer.Client
