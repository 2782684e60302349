import ModelServer.TypeUtil.Traverse
import ModelServer.Js.Store
import ModelServer.Js.Text
import Mathlib.Data.List.AList

namespace ModelServer

open Js

abbrev Format := String

def FORMAT_JSON_V1 : Format := "json"

def FORMAT_JSON_V2 : Format := "json-v2"

def FORMAT_XMI : Format := "xmi"

inductive JsonFormat
  | json
  | jsonV2
  deriving DecidableEq, Repr

namespace TypeUtil

abbrev Copies := AList fun _ : Nat => Nat

/-- `{ ...target }` with the type under the key `target` where there is one under the key `source`. The test for the
    key and the reading also find what is inherited from the prototype. -/
def copyEntries {α : Type} (source target : String) (inherited : Option α) (entries : List (String × α)) :
    List (String × α) :=
  let theCopy := spread entries
  match (theCopy.lookup source).or inherited with
  | some value => remove source (put target value theCopy)
  | none => theCopy

/-- What a copy inherits: its prototype is the own property `__proto__` of the original, if that is an object. -/
def inherited (heap : Heap) (target : Cell) (name : String) : Option Val :=
  (target.child "__proto__").bind (heap.child · name)

def copyCell (format : JsonFormat) (heap : Heap) (target : Cell) : Cell :=
  match format with
  | .json => .object (copyEntries "$type" "eClass" (inherited heap target "$type") target.entries)
  | .jsonV2 => .object (copyEntries "eClass" "$type" (inherited heap target "eClass") target.entries)

def copier (format : JsonFormat) : Callback Copies := fun target _ heap copies =>
  let theCopy := copyCell format heap ((heap.cell? target).getD (.object []))
  let (heap, copy) := heap.alloc theCopy
  (false, heap, copies.insert target copy)

def copyGetter (copies : Copies) : Val → Val
  | .ref a => match copies.lookup a with
    | some copy => .ref copy
    | none => .ref a
  | o => o

def assignProp (heap : Heap) (target : Nat) (prop : String) (value : Val) : Heap :=
  match heap.cell? target with
  | some c => heap.write target (c.assign prop value)
  | none => heap

def relinkProp (copies : Copies) (target : Nat) (heap : Heap) (prop : String) : Heap :=
  let value := readProp heap target prop
  match arrayElems? heap value with
  | some elems =>
    let (heap, array) := heap.alloc
      (.array (if isNonEmptyObjectArray heap value then elems.map (copyGetter copies) else elems))
    assignProp heap target prop (.ref array)
  | none => if isObject value then assignProp heap target prop (copyGetter copies value) else heap

def referencer (copies : Copies) : Callback Unit := fun target props heap _ =>
  (false, props.foldl (relinkProp copies target) heap, ())

/-- Copy an object graph, with the type keys of the format. The result is `undefined` where the map
    has no copy, which is so of every root that is not an object. -/
def copy (fuel : Nat) (heap : Heap) (object : Val) (format : JsonFormat) : Option (Heap × Val) := do
  let (_, copied) ← traverse (copier format) fuel object ⟨heap, [], ∅⟩
  let result := match object with
    | .ref a => match copied.state.lookup a with
      | some copy => .ref copy
      | none => .undefined
    | _ => .undefined
  let (_, linked) ← traverse (referencer copied.state) fuel result ⟨copied.heap, [], ()⟩
  return (linked.heap, result)

def finder (name : String) : Callback Unit := fun _ props heap state => (props.contains name, heap, state)

def findProperty (fuel : Nat) (heap : Heap) (object : Val) (name : String) : Option Bool :=
  (traverse (finder name) fuel object ⟨heap, [], ()⟩).map Prod.fst

def isJsonV1 (fuel : Nat) (heap : Heap) (object : Val) : Option Bool := findProperty fuel heap object "eClass"

def isJsonV2 (fuel : Nat) (heap : Heap) (object : Val) : Option Bool := findProperty fuel heap object "$type"

def asJsonV1 (fuel : Nat) (heap : Heap) (object : Val) : Option (Heap × Val) := do
  if ← isJsonV1 fuel heap object then return (heap, object) else copy fuel heap object .json

def asJsonV2 (fuel : Nat) (heap : Heap) (object : Val) : Option (Heap × Val) := do
  if ← isJsonV2 fuel heap object then return (heap, object) else copy fuel heap object .jsonV2

inductive Payload
  | text (s : String)
  | value (v : Val)
  deriving DecidableEq, Repr

abbrev Exec := ExceptT String Option

abbrev Encoder := Heap → Payload → Exec (Heap × Payload)

def asXML : Encoder
  | heap, .text object => return (heap, .text object)
  | _, .value _ => throw "Attempt to encode non-string as XML"

def stringifyValue (text : JsonText) (fuel : Nat) (heap : Heap) : Val → Option Payload
  | .undefined => some (.value .undefined)
  | v => (read fuel heap v).map fun j => .text (text.stringify j)

/-- Strings are parsed before and written after the conversion. -/
def handleString (text : JsonText) (fuel : Nat) (fn : Heap → Val → Option (Heap × Val)) : Encoder
  | heap, .text target => do
    let some parsed := text.parse target | throw "SyntaxError"
    let (heap, object) := store heap parsed
    let (heap, result) ← fn heap object
    let written ← stringifyValue text fuel heap result
    return (heap, written)
  | heap, .value target => do
    let (heap, result) ← fn heap target
    return (heap, .value result)

def encode (text : JsonText) (fuel : Nat) (format : Format) : Except String Encoder :=
  if format = FORMAT_XMI then .ok asXML
  else if format = FORMAT_JSON_V1 then .ok (handleString text fuel (asJsonV1 fuel))
  else if format = FORMAT_JSON_V2 then .ok (handleString text fuel (asJsonV2 fuel))
  else .error ("Unsupported message format: " ++ format)

structure RequestBody where
  data : Payload
  deriving DecidableEq, Repr

def encodeRequestBody (text : JsonText) (fuel : Nat) (format : Format) :
    Except String (Heap → Payload → Exec (Heap × RequestBody)) := do
  let encoder ← encode text fuel format
  return fun heap object => do
    let (heap, data) ← encoder heap object
    return (heap, { data })

end TypeUtil

end ModelServer
