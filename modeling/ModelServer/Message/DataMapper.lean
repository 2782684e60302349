import ModelServer.Message.Guards

namespace ModelServer.Message
open Js

/-- What the code takes from the JavaScript runtime and from urijs: `JSON.parse`, `JSON.stringify` with an
    indent of two, and the text of `new URI(..)`. A failure carries its message. -/
structure Library where
  parse : String → Except String Json
  stringify : Json → String
  uriText : Json → Except String String

structure ModelServerMessage where
  type : String
  data : Json
  props : List (String × Json)

namespace ModelServerMessage

def is (object : Json) : Bool :=
  AnyObject.is object && isString object "type" && (object.child "data").isSome

def read (object : Json) : Option ModelServerMessage :=
  match object.child "type", object.child "data" with
  | some (.prim (.string type)), some data => some ⟨type, data, object.entries⟩
  | _, _ => none

theorem read_isSome (object : Json) : (read object).isSome = is object := by
  cases object with
  | prim p => rfl
  | arr elems =>
    have word : indexOf? "type" = none := by decide
    simp [read, is, isString, not_hasProperty_arr, Json.child, word]
  | obj props =>
    simp only [read, is, AnyObject.is, isString, hasProperty, Json.child, Bool.true_and]
    cases props.lookup "type" with
    | none => rfl
    | some type =>
      cases props.lookup "data" with
      | none => cases type <;> simp
      | some data =>
        cases type with
        | prim p => cases p <;> rfl
        | arr elems => rfl
        | obj inner => rfl

end ModelServerMessage

inductive MessageType
  | success
  | warning
  | error
  | «open»
  | close
  | fullUpdate
  | incrementalUpdate
  | dirtyState
  | validationResult
  | keepAlive
  | unknown
  deriving DecidableEq, Repr

namespace MessageType

def value : MessageType → String
  | success => "success"
  | warning => "warning"
  | error => "error"
  | «open» => "open"
  | close => "close"
  | fullUpdate => "fullUpdate"
  | incrementalUpdate => "incrementalUpdate"
  | dirtyState => "dirtyState"
  | validationResult => "validationResult"
  | keepAlive => "keepAlive"
  | unknown => "unknown"

def literals : List MessageType :=
  [success, warning, error, «open», close, fullUpdate, incrementalUpdate, dirtyState, validationResult, keepAlive,
    unknown]

/-- The names that `in` finds in the enumeration besides its literals: its function, and what every
    object inherits. -/
def inheritedNames : List String :=
  ["asMessageType", "constructor", "__defineGetter__", "__defineSetter__", "hasOwnProperty", "__lookupGetter__",
    "__lookupSetter__", "isPrototypeOf", "propertyIsEnumerable", "toString", "valueOf", "__proto__", "toLocaleString"]

/-- The result of `asMessageType`: for an inherited name, what stands under that name. -/
inductive Mapped
  | literal (type : MessageType)
  | inherited (name : String)
  deriving DecidableEq, Repr

def asMessageType (value : String) : Mapped :=
  match literals.find? (·.value = value) with
  | some type => .literal type
  | none => if value ∈ inheritedNames then .inherited value else .literal unknown

theorem asMessageType_value (type : MessageType) : asMessageType type.value = .literal type := by
  cases type <;> decide

end MessageType

/-- `new URI(..).toString()` of a text or of the parts of a serialized URI. -/
def asURI (lib : Library) (obj : Json) : Except String String :=
  match obj with
  | .prim (.string _) => lib.uriText obj
  | _ =>
    match obj.child "_parts" with
    | some parts => if isURI obj then lib.uriText parts else .error "Cannot map to URI. Given parameter is not an URI!"
    | none => .error "Cannot map to URI. Given parameter is not an URI!"

def asString (lib : Library) (object : Json) : Except String String :=
  match object with
  | .prim (.string s) => .ok s
  | _ =>
    if Model.is object then .ok (lib.stringify object)
    else if isArrayOf Model.is object then .ok (",".intercalate ((elements object).map lib.stringify))
    else if isURI object then asURI lib object
    else if isArrayOf isURI object then do
      let uriArray ← (elements object).mapM (asURI lib)
      .ok (lib.stringify (.arr (uriArray.map fun text => .prim (.string text))))
    else .ok (lib.stringify object)

def asObject (object : Json) : Except String Json :=
  if AnyObject.is object then .ok object
  else .error "Cannot map to object! Given parameter is not a defined object"

def asType (object : Json) (guard : Json → Bool) : Except String Json :=
  if guard object then .ok object
  else .error "Cannot map to given type. Given parameter failed the type guard check!"

/-- A serialized URI, or an array of them, that urijs cannot rebuild. -/
def Unreadable (lib : Library) (object : Json) : Prop :=
  Model.is object = false ∧ isArrayOf Model.is object = false ∧
    ((isURI object = true ∧ ∃ e, asURI lib object = .error e) ∨
      (isArrayOf isURI object = true ∧ ∃ element ∈ elements object, ∃ e, asURI lib element = .error e))

theorem mapM_fails {α β : Type} (f : α → Except String β) (items : List α) :
    (∃ e, items.mapM f = .error e) ↔ ∃ item ∈ items, ∃ e, f item = .error e := by
  induction items with
  | nil => simp [pure, Except.pure]
  | cons first rest ih =>
    rw [List.mapM_cons]
    cases at_first : f first with
    | error e =>
      simp [bind, Except.bind, at_first]
    | ok value =>
      simp only [bind, Except.bind, List.mem_cons, exists_eq_or_imp, at_first, reduceCtorEq, exists_false, false_or, ← ih]
      cases rest.mapM f <;> simp [pure, Except.pure]

theorem asString_fails (lib : Library) (object : Json) :
    (∃ e, asString lib object = .error e) ↔ Unreadable lib object := by
  by_cases text : isStringValue object = true
  · cases object with
    | arr elems => cases text
    | obj props => cases text
    | prim p => cases p <;> first | (cases text; done) | simp [asString, Unreadable, isURI, AnyObject.is, isArrayOf]
  · have unfolded : asString lib object =
        if Model.is object then .ok (lib.stringify object)
        else if isArrayOf Model.is object then .ok (",".intercalate ((elements object).map lib.stringify))
        else if isURI object then asURI lib object
        else if isArrayOf isURI object then do
          let uriArray ← (elements object).mapM (asURI lib)
          .ok (lib.stringify (.arr (uriArray.map fun text => .prim (.string text))))
        else .ok (lib.stringify object) := by
      unfold asString
      split
      · exact absurd rfl text
      · rfl
    rw [unfolded, Unreadable]
    by_cases model : Model.is object = true
    · simp [model]
    by_cases models : isArrayOf Model.is object = true
    · simp [model, models]
    by_cases uri : isURI object = true
    · have single : isArrayOf isURI object = false := by
        cases object with
        | arr elems => rw [not_isURI_arr] at uri; cases uri
        | prim p => rfl
        | obj props => rfl
      simp [model, models, uri, single]
    by_cases uris : isArrayOf isURI object = true
    · simp only [model, models, uri, uris, if_true, Bool.false_eq_true, if_false, ← mapM_fails (asURI lib)]
      cases (elements object).mapM (asURI lib) <;> simp [bind, Except.bind]
    · simp [model, models, uri, uris]

namespace MessageDataMapper

def asString (lib : Library) (message : ModelServerMessage) : Except String String := Message.asString lib message.data

def asBoolean (message : ModelServerMessage) : Bool :=
  match message.data with
  | .prim (.bool b) => b
  | _ => false

def asObject (message : ModelServerMessage) : Except String Json := Message.asObject message.data

def as (message : ModelServerMessage) (guard : Json → Bool) : Except String Json := Message.asType message.data guard

end MessageDataMapper

end ModelServer.Message
