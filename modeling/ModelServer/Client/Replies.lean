import ModelServer.Client.Process
import ModelServer.Client.Requests
import ModelServer.Js.Conversion

namespace ModelServer.Client
open Js Message

inductive Result
  | json (value : Json)
  | text (text : Option String)
  | flag (value : Bool)
  | uris (texts : List String)
  | models (models : List (String × Json))

/-- The methods that both clients have, by what decides how a reply is read. -/
inductive Asked
  | get (formatOrGuard : Option FormatOrGuard)
  | getAll (formatOrGuard : Option FormatOrGuard)
  | getElementById (formatOrGuard : Option FormatOrGuard)
  | getElementByName (formatOrGuard : Option FormatOrGuard)
  | create (formatOrGuard : Option FormatOrGuard)
  | update (formatOrGuard : Option FormatOrGuard)
  | getModelUris
  | delete
  | close
  | save
  | saveAll
  | validate
  | getValidationConstraints
  | getTypeSchema
  | getUiSchema
  | configureServer
  | ping

abbrev Mapper := Option Json → Except Thrown Result

def orThrow {α : Type} (result : Except String α) : Except Thrown α := result.mapError .other

section Data

variable (lib : Library)

def dataOf (message : Option Json) : Option Json := message.bind (·.child "data")

def MessageDataMapper.asString : Mapper := fun message =>
  match dataOf message with
  | some data => return .text (some (← orThrow (Message.asString lib data)))
  | none => return .text none

def MessageDataMapper.asObject : Mapper := fun message =>
  match dataOf message with
  | some data => return .json (← orThrow (Message.asObject data))
  | none => throw (.other "Cannot map to object! Given parameter is not a defined object")

/-- No guard accepts undefined data. -/
def MessageDataMapper.as (guard : TypeGuard) : Mapper := fun message =>
  match dataOf message with
  | some data => return .json (← orThrow (Message.asType data guard))
  | none => throw (.other "Cannot map to given type. Given parameter failed the type guard check!")

def MessageDataMapper.isSuccess : Mapper := fun message =>
  return .flag (((message.bind (·.child "type")).map (isText MessageType.success.value)).getD false)

def MessageDataMapper.asURIArray : Mapper := fun message =>
  match dataOf message with
  | some (.arr elems) => return .uris (← orThrow (elems.mapM (asURI lib)))
  | _ => throw (.other "Cannot map to URI[]. Given parameter is not an array!")

def entriesOf (object : Json) : List (String × Json) :=
  (names object.entries).filterMap fun name => (object.child name).map fun value => (name, value)

def asModelArray (data : Option Json) : Except String (List (String × Json)) :=
  match data with
  | some object =>
    if AnyObject.is object then .ok (entriesOf object)
    else .error "Cannot map to Model[]. The given object is no defined or of type \"object\"!"
  | none => .error "Cannot map to Model[]. The given object is no defined or of type \"object\"!"

def mapModel (guard : Option TypeGuard) (toString : Bool) (model : String × Json) : Except String (String × Json) :=
  match guard with
  | some guard => return (model.1, ← Message.asType model.2 guard)
  | none =>
    if toString then return (model.1, .prim (.string (← Message.asString lib model.2)))
    else return (model.1, ← Message.asObject model.2)

def mapModels (guard : Option TypeGuard) (toString : Bool) : Mapper := fun message =>
  orThrow do
    let models ← asModelArray (dataOf message)
    return .models (← models.mapM (mapModel lib guard toString))

end Data

namespace ModelServerClient

variable (lib : Library)

def createMapper (formatOrGuard : Option FormatOrGuard) : Mapper :=
  match formatOrGuard with
  | some (.format _) => MessageDataMapper.asString lib
  | some (.guard typeGuard) => MessageDataMapper.as typeGuard
  | none => MessageDataMapper.asObject

def messageMapper (formatOrGuard : Option FormatOrGuard) : Mapper :=
  match formatOrGuard with
  | some (.format _) => mapModels lib none true
  | some (.guard typeGuard) => mapModels lib (some typeGuard) false
  | none => mapModels lib none false

def mapper : Asked → Mapper
  | .get formatOrGuard => createMapper lib formatOrGuard
  | .getAll formatOrGuard => messageMapper lib formatOrGuard
  | .getElementById formatOrGuard => createMapper lib formatOrGuard
  | .getElementByName formatOrGuard => createMapper lib formatOrGuard
  | .create formatOrGuard => createMapper lib formatOrGuard
  | .update formatOrGuard => createMapper lib formatOrGuard
  | .getModelUris => MessageDataMapper.asURIArray lib
  | .delete => MessageDataMapper.isSuccess
  | .close => MessageDataMapper.isSuccess
  | .save => MessageDataMapper.isSuccess
  | .saveAll => MessageDataMapper.isSuccess
  | .validate => MessageDataMapper.as Diagnostic.is
  | .getValidationConstraints => MessageDataMapper.asString lib
  | .getTypeSchema => MessageDataMapper.asString lib
  | .getUiSchema => MessageDataMapper.asString lib
  | .configureServer => MessageDataMapper.isSuccess
  | .ping => MessageDataMapper.isSuccess

def settled (asked : Asked) (request : RequestOutcome) : Except Thrown Result := process lib request (mapper lib asked)

end ModelServerClient

namespace ModelServerClientV2

variable (lib : Library)

def modelMapper (formatOrGuard : Option FormatOrGuard) : Mapper :=
  match formatOrGuard with
  | some (.guard typeGuard) => MessageDataMapper.as typeGuard
  | some (.format _) => MessageDataMapper.asObject
  | none => MessageDataMapper.asObject

def messageMapper (formatOrGuard : Option FormatOrGuard) : Mapper :=
  match truthy formatOrGuard with
  | none => mapModels lib none false
  | some (.format _) => mapModels lib none true
  | some (.guard typeGuard) => mapModels lib (some typeGuard) false

def mapper : Asked → Mapper
  | .get formatOrGuard => modelMapper formatOrGuard
  | .getAll formatOrGuard => messageMapper lib formatOrGuard
  | .getElementById formatOrGuard => modelMapper formatOrGuard
  | .getElementByName formatOrGuard => modelMapper formatOrGuard
  | .create formatOrGuard => modelMapper formatOrGuard
  | .update formatOrGuard => modelMapper formatOrGuard
  | .getModelUris => MessageDataMapper.asURIArray lib
  | .delete => MessageDataMapper.isSuccess
  | .close => MessageDataMapper.isSuccess
  | .save => MessageDataMapper.isSuccess
  | .saveAll => MessageDataMapper.isSuccess
  | .validate => MessageDataMapper.as Diagnostic.is
  | .getValidationConstraints => MessageDataMapper.asString lib
  | .getTypeSchema => MessageDataMapper.asString lib
  | .getUiSchema => MessageDataMapper.asString lib
  | .configureServer => MessageDataMapper.isSuccess
  | .ping => MessageDataMapper.isSuccess

def settled (asked : Asked) (request : RequestOutcome) : Except Thrown Result := process lib request (mapper lib asked)

end ModelServerClientV2

section Agreement

variable {lib : Library}

def reply (data : Json) : RequestOutcome :=
  .reply ⟨some (.obj [("type", .prim (.string MessageType.success.value)), ("data", data)])⟩

theorem settled_same (asked : Asked) (same : ModelServerClient.mapper lib asked = ModelServerClientV2.mapper lib asked)
    (request : RequestOutcome) : ModelServerClient.settled lib asked request = ModelServerClientV2.settled lib asked request := by
  rw [ModelServerClient.settled, process_same, same]
  rfl

theorem text_differs (asked : Asked) (text : ModelServerClient.mapper lib asked = MessageDataMapper.asString lib)
    (object : ModelServerClientV2.mapper lib asked = MessageDataMapper.asObject) :
    ∃ request, ModelServerClient.settled lib asked request ≠ ModelServerClientV2.settled lib asked request := by
  refine ⟨reply (.prim (.string "")), ?_⟩
  rw [ModelServerClient.settled, process_same, text, ModelServerClientV2.settled, object]
  intro same
  cases same

theorem texts_differ : ∃ request, ModelServerClient.settled lib (.getAll (some (.format ""))) request ≠
    ModelServerClientV2.settled lib (.getAll (some (.format ""))) request := by
  refine ⟨reply (.obj [("", .prim (.string ""))]), ?_⟩
  rw [ModelServerClient.settled, process_same, ModelServerClientV2.settled]
  intro same
  cases same

/-- Both clients read a reply alike but where a method of one model is given a format, or that of all models an empty
    one. -/
def ReadAlike : Asked → Prop
  | .get formatOrGuard | .getElementById formatOrGuard | .getElementByName formatOrGuard | .create formatOrGuard
  | .update formatOrGuard => ∀ format, formatOrGuard ≠ some (.format format)
  | .getAll formatOrGuard => formatOrGuard ≠ some (.format "")
  | _ => True

theorem model_same_iff (asked : Asked) (formatOrGuard : Option FormatOrGuard)
    (mapper : ModelServerClient.mapper lib asked = ModelServerClient.createMapper lib formatOrGuard)
    (mapperV2 : ModelServerClientV2.mapper lib asked = ModelServerClientV2.modelMapper formatOrGuard) :
    (∀ request, ModelServerClient.settled lib asked request = ModelServerClientV2.settled lib asked request) ↔
      ∀ format, formatOrGuard ≠ some (.format format) := by
  constructor
  · rintro same format rfl
    rcases text_differs asked mapper mapperV2 with ⟨request, differs⟩
    exact differs (same request)
  · intro noFormat
    refine settled_same asked ?_
    rw [mapper, mapperV2]
    cases formatOrGuard with
    | none => rfl
    | some formatOrGuard =>
      cases formatOrGuard with
      | format format => exact absurd rfl (noFormat format)
      | guard typeGuard => rfl

theorem getAll_same_iff (formatOrGuard : Option FormatOrGuard) :
    (∀ request, ModelServerClient.settled lib (.getAll formatOrGuard) request =
      ModelServerClientV2.settled lib (.getAll formatOrGuard) request) ↔ formatOrGuard ≠ some (.format "") := by
  constructor
  · rintro same rfl
    rcases @texts_differ lib with ⟨request, differs⟩
    exact differs (same request)
  · intro given
    refine settled_same _ ?_
    cases formatOrGuard with
    | none => rfl
    | some formatOrGuard =>
      cases formatOrGuard with
      | guard typeGuard => rfl
      | format format =>
        have nonEmpty : format ≠ "" := fun empty => given (by rw [empty])
        simp only [ModelServerClient.mapper, ModelServerClient.messageMapper, ModelServerClientV2.mapper,
          ModelServerClientV2.messageMapper, ModelServerClientV2.truthy, if_neg nonEmpty]

end Agreement

section AllModels

variable {lib : Library}

inductive ReadsContent (lib : Library) : Option FormatOrGuard → Json → Json → Prop
  | object {content : Json} (isObject : AnyObject.is content = true) : ReadsContent lib none content content
  | text {format : Format} {content : Json} {text : String} (printed : Message.asString lib content = .ok text) :
      ReadsContent lib (some (.format format)) content (.prim (.string text))
  | typed {typeGuard : TypeGuard} {content : Json} (accepted : typeGuard content = true) :
      ReadsContent lib (some (.guard typeGuard)) content content

def Listed (lib : Library) (formatOrGuard : Option FormatOrGuard) (request : RequestOutcome)
    (models : List (String × Json)) : Prop :=
  ∃ body data, request = .reply ⟨some body⟩ ∧ hasErrorType body = false ∧ body.child "data" = some data ∧
    AnyObject.is data = true ∧
    List.Forall₂ (fun entry model => model.1 = entry.1 ∧ ReadsContent lib formatOrGuard entry.2 model.2)
      (entriesOf data) models

def guardOf : Option FormatOrGuard → Option TypeGuard
  | some (.guard typeGuard) => some typeGuard
  | _ => none

def isFormat : Option FormatOrGuard → Bool
  | some (.format _) => true
  | _ => false

theorem messageMapper_eq (formatOrGuard : Option FormatOrGuard) :
    ModelServerClient.messageMapper lib formatOrGuard = mapModels lib (guardOf formatOrGuard) (isFormat formatOrGuard) := by
  cases formatOrGuard with
  | none => rfl
  | some formatOrGuard => cases formatOrGuard <;> rfl

theorem messageMapperV2_eq (formatOrGuard : Option FormatOrGuard) :
    ModelServerClientV2.messageMapper lib formatOrGuard =
      ModelServerClient.messageMapper lib (ModelServerClientV2.truthy formatOrGuard) := by
  unfold ModelServerClientV2.messageMapper ModelServerClient.messageMapper
  cases ModelServerClientV2.truthy formatOrGuard with
  | none => rfl
  | some formatOrGuard => cases formatOrGuard <;> rfl

theorem mapModel_ok_iff (formatOrGuard : Option FormatOrGuard) (entry model : String × Json) :
    mapModel lib (guardOf formatOrGuard) (isFormat formatOrGuard) entry = .ok model ↔
      model.1 = entry.1 ∧ ReadsContent lib formatOrGuard entry.2 model.2 := by
  rcases entry with ⟨modeluri, content⟩
  rcases model with ⟨modeluri', content'⟩
  cases formatOrGuard with
  | none =>
    simp only [mapModel, guardOf, isFormat, Bool.false_eq_true, if_false, bind_eq_ok, Message.asObject]
    constructor
    · rintro ⟨read, same, returned⟩
      cases returned
      split at same
      · cases same
        rename_i isObject
        exact ⟨rfl, .object isObject⟩
      · cases same
    · rintro ⟨rfl, reads⟩
      cases reads with
      | object isObject => exact ⟨_, if_pos isObject, rfl⟩
  | some formatOrGuard =>
    cases formatOrGuard with
    | format format =>
      simp only [mapModel, guardOf, isFormat, if_true, bind_eq_ok]
      constructor
      · rintro ⟨text, printed, returned⟩
        cases returned
        exact ⟨rfl, .text printed⟩
      · rintro ⟨rfl, reads⟩
        cases reads with
        | text printed => exact ⟨_, printed, rfl⟩
    | guard typeGuard =>
      simp only [mapModel, guardOf, bind_eq_ok, Message.asType]
      constructor
      · rintro ⟨read, same, returned⟩
        cases returned
        split at same
        · cases same
          rename_i accepted
          exact ⟨rfl, .typed accepted⟩
        · cases same
      · rintro ⟨rfl, reads⟩
        cases reads with
        | typed accepted => exact ⟨_, if_pos accepted, rfl⟩

theorem mapM_ok_iff {α β : Type} {f : α → Except String β} {R : α → β → Prop} (each : ∀ x y, f x = .ok y ↔ R x y)
    (xs : List α) (ys : List β) : xs.mapM f = .ok ys ↔ List.Forall₂ R xs ys := by
  induction xs generalizing ys with
  | nil =>
    rw [List.mapM_nil, List.forall₂_nil_left_iff]
    exact ⟨fun same => (Except.ok.inj same).symm, fun same => by rw [same]; rfl⟩
  | cons x xs ih =>
    rw [List.mapM_cons, bind_eq_ok, List.forall₂_cons_left_iff]
    constructor
    · rintro ⟨y, first, rest⟩
      rcases bind_eq_ok.mp rest with ⟨ys', others, returned⟩
      cases returned
      exact ⟨y, ys', (each x y).mp first, (ih ys').mp others, rfl⟩
    · rintro ⟨y, ys', first, others, rfl⟩
      exact ⟨y, (each x y).mpr first, bind_eq_ok.mpr ⟨ys', (ih ys').mpr others, rfl⟩⟩

theorem mapModels_ok_iff (guard : Option TypeGuard) (toString : Bool) (body : Json) (models : List (String × Json)) :
    mapModels lib guard toString (some body) = .ok (.models models) ↔
      ∃ data, body.child "data" = some data ∧ AnyObject.is data = true ∧
        (entriesOf data).mapM (mapModel lib guard toString) = .ok models := by
  have found : dataOf (some body) = body.child "data" := rfl
  unfold mapModels
  rw [found]
  cases given : body.child "data" with
  | none => simp [orThrow, asModelArray, bind, Except.bind, Except.mapError]
  | some data =>
    cases object : AnyObject.is data with
    | false => simp [orThrow, asModelArray, object, bind, Except.bind, Except.mapError]
    | true =>
      cases mapped : (entriesOf data).mapM (mapModel lib guard toString) with
      | error e => simp [orThrow, asModelArray, object, mapped, bind, Except.bind, Except.mapError]
      | ok models' => simp [orThrow, asModelArray, object, mapped, bind, Except.bind, Except.mapError, pure, Except.pure]

theorem is_of_child {body data : Json} {name : String} (found : body.child name = some data) : AnyObject.is body = true := by
  cases body with
  | prim p => cases found
  | arr elems => rfl
  | obj props => rfl

theorem isErrorType_eq_false {body : Json} (object : AnyObject.is body = true) :
    isErrorType (some body) = .ok false ↔ hasErrorType body = false := by
  cases body with
  | prim p => cases object
  | arr elems => exact ⟨fun same => Except.ok.inj same, fun same => congrArg Except.ok same⟩
  | obj props => exact ⟨fun same => Except.ok.inj same, fun same => congrArg Except.ok same⟩

theorem process_ok_iff {T : Type} (request : RequestOutcome) (mapper : Option Json → Except Thrown T) (result : T) :
    ModelServerClientV2.process lib request mapper = .ok result ↔
      ∃ body, request = .reply ⟨some body⟩ ∧ isErrorType (some body) = .ok false ∧ mapper (some body) = .ok result := by
  cases request with
  | failed error => simp [ModelServerClientV2.process]
  | reply response =>
    rcases response with ⟨data⟩
    cases data with
    | none => simp [ModelServerClientV2.process, isErrorType, bind, Except.bind]
    | some body =>
      cases typed : isErrorType (some body) with
      | error e => simp [ModelServerClientV2.process, typed, bind, Except.bind]
      | ok isError => cases isError <;> simp [ModelServerClientV2.process, typed, bind, Except.bind]

theorem listed_iff (formatOrGuard : Option FormatOrGuard) (request : RequestOutcome) (models : List (String × Json)) :
    ModelServerClientV2.process lib request (ModelServerClient.messageMapper lib formatOrGuard) = .ok (.models models) ↔
      Listed lib formatOrGuard request models := by
  rw [process_ok_iff, messageMapper_eq]
  constructor
  · rintro ⟨body, rfl, typed, mapped⟩
    rcases (mapModels_ok_iff _ _ body models).mp mapped with ⟨data, found, object, all⟩
    have bodyObject := is_of_child found
    exact ⟨body, data, rfl, (isErrorType_eq_false bodyObject).mp typed, found, object,
      (mapM_ok_iff (mapModel_ok_iff formatOrGuard) _ _).mp all⟩
  · rintro ⟨body, data, rfl, typed, found, object, all⟩
    have bodyObject := is_of_child found
    exact ⟨body, rfl, (isErrorType_eq_false bodyObject).mpr typed, (mapModels_ok_iff _ _ body models).mpr
      ⟨data, found, object, (mapM_ok_iff (mapModel_ok_iff formatOrGuard) _ _).mpr all⟩⟩

/-- Getting all models gives all of them or fails: one model for each entry of the data, in their order, each with its
    content as it is asked for. The second client takes an empty format for none. -/
theorem getAll_listed_iff (lib : Library) (formatOrGuard : Option FormatOrGuard) (request : RequestOutcome)
    (models : List (String × Json)) :
    (ModelServerClient.settled lib (.getAll formatOrGuard) request = .ok (.models models) ↔
        Listed lib formatOrGuard request models) ∧
      (ModelServerClientV2.settled lib (.getAll formatOrGuard) request = .ok (.models models) ↔
        Listed lib (ModelServerClientV2.truthy formatOrGuard) request models) := by
  constructor
  · rw [ModelServerClient.settled, process_same]
    exact listed_iff formatOrGuard request models
  · rw [ModelServerClientV2.settled, ModelServerClientV2.mapper, messageMapperV2_eq]
    exact listed_iff (ModelServerClientV2.truthy formatOrGuard) request models

end AllModels

end ModelServer.Client
