import ModelServer.Js.Json

namespace ModelServer.Message
open Js

/-- `propertyKey in object` and a test of the value. No name that is tested here is inherited by an
    object or an array. -/
def hasProperty (test : Json → Bool) (object : Json) (propertyKey : String) : Bool :=
  match object.child propertyKey with
  | some value => test value
  | none => false

def AnyObject.is : Json → Bool
  | .prim _ => false
  | .arr _ => true
  | .obj _ => true

def isStringValue : Json → Bool
  | .prim (.string _) => true
  | _ => false

def isBooleanValue : Json → Bool
  | .prim (.bool _) => true
  | _ => false

def isNumberValue : Json → Bool
  | .prim (.number _) => true
  | _ => false

def isArrayValue : Json → Bool
  | .arr _ => true
  | _ => false

def isText (text : String) : Json → Bool
  | .prim (.string s) => s = text
  | _ => false

def isString (object : Json) (propertyKey : String) : Bool := hasProperty isStringValue object propertyKey

def isBoolean (object : Json) (propertyKey : String) : Bool := hasProperty isBooleanValue object propertyKey

def isNumber (object : Json) (propertyKey : String) : Bool := hasProperty isNumberValue object propertyKey

def isObject (object : Json) (propertyKey : String) : Bool := hasProperty AnyObject.is object propertyKey

def isArray (object : Json) (propertyKey : String) : Bool := hasProperty isArrayValue object propertyKey

def elements : Json → List Json
  | .arr elems => elems
  | _ => []

def isArrayOf (guard : Json → Bool) : Json → Bool
  | .arr elems => elems.all guard
  | _ => false

theorem is_of_hasProperty {test : Json → Bool} {object : Json} {propertyKey : String}
    (h : hasProperty test object propertyKey = true) : AnyObject.is object = true := by
  cases object with
  | prim p => cases h
  | arr elems => rfl
  | obj props => rfl

theorem not_hasProperty_arr (test : Json → Bool) (elems : List Json) {propertyKey : String}
    (word : indexOf? propertyKey = none) : hasProperty test (.arr elems) propertyKey = false := by
  simp [hasProperty, Json.child, word]

namespace ModelServerObject

def is (object : Json) : Bool := AnyObject.is object && isString object "eClass"

end ModelServerObject

def ModelServerCommandPackage.NS_URI : String := "http://www.eclipse.org/emfcloud/modelserver/command"

def ChangePackage.NS_URI : String := "http://www.eclipse.org/emf/2003/Change"

namespace ChangeDescription

def URI : String := ChangePackage.NS_URI ++ "#//ChangeDescription"

def is (object : Json) : Bool := ModelServerObject.is object && hasProperty (isText URI) object "eClass"

end ChangeDescription

namespace CommandExecutionResult

def URI : String := ModelServerCommandPackage.NS_URI ++ "#//CommandExecutionResult"

def is (object : Json) : Bool :=
  ModelServerObject.is object && hasProperty (isText URI) object "eClass" && isString object "type" &&
    (object.child "source").isSome && hasProperty ChangeDescription.is object "changeDescription"

end CommandExecutionResult

namespace Diagnostic

def is (object : Json) : Bool :=
  AnyObject.is object && isNumber object "severity" && isString object "message" && isString object "source" &&
    isNumber object "code" && isArray object "data" && isArray object "children" && isString object "id"

end Diagnostic

namespace Model

def is (object : Json) : Bool := AnyObject.is object && isString object "modeluri" && isObject object "content"

end Model

def isURI (object : Json) : Bool :=
  AnyObject.is object && isObject object "_parts" && isBoolean object "_deferred_build" && isString object "_string"

theorem not_isURI_arr (elems : List Json) : isURI (.arr elems) = false := by
  have parts : isObject (.arr elems) "_parts" = false := not_hasProperty_arr _ elems (by decide)
  simp [isURI, parts]

namespace Operations

def isOperation (object : Json) : Bool := AnyObject.is object && isString object "op" && isString object "path"

/-- Only the first element is looked at. -/
def isPatch : Json → Bool
  | .arr [] => true
  | .arr (first :: _) => isOperation first
  | _ => false

theorem isPatch_of_operations {data : Json} (h : isArrayOf isOperation data = true) : isPatch data = true := by
  cases data with
  | prim p => cases h
  | obj props => cases h
  | arr elems =>
    cases elems with
    | nil => rfl
    | cons first rest =>
      rw [isArrayOf, List.all_cons, Bool.and_eq_true] at h
      exact h.1

/-- A patch that is refused holds no operation at its head, so it is no list of operations either. -/
theorem not_operations_of_not_isPatch {data : Json} (h : isPatch data = false) :
    isArrayOf isOperation data = false := by
  cases operations : isArrayOf isOperation data with
  | false => rfl
  | true =>
    rw [isPatch_of_operations operations] at h
    cases h

end Operations

end ModelServer.Message
