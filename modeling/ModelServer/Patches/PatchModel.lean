import ModelServer.Js.PatchRuns
import ModelServer.Message.SubscriptionClient

namespace ModelServer.Patches
open Js Message

/-- What the code takes from fast-json-patch. -/
structure JsonPatchLibrary where
  deepClone : Heap → Val → Option (Heap × Val)
  applyPatch : Heap → Val → Val → Heap.Applied

/-- The library as RFC 6902 describes it: added values are put into the document themselves, copied ones as clones. -/
def rfc6902 : JsonPatchLibrary where
  deepClone := Heap.deepClone
  applyPatch := Heap.applyPatch

/-- `patchModel` of an incremental update: the patch is that of the notification in every call. -/
def patchModel (lib : JsonPatchLibrary) (h : Heap) (patch model : Val) (copy : Bool) : Heap.Applied :=
  match (if copy then lib.deepClone h model else some (h, model)) with
  | none => (h, none)
  | some (h, modelToPatch) => lib.applyPatch h modelToPatch patch

section Reply

def truthy : Val → Bool
  | .undefined => false
  | .prim .null => false
  | .prim (.bool b) => b
  | .prim (.number n) => n ≠ 0
  | .prim (.string s) => s ≠ ""
  | .ref _ => true

def property (h : Heap) (v : Val) (name : String) : Val := (h.child v name).getD .undefined

def isOperation (h : Heap) (v : Val) : Bool :=
  ((h.child v "op").bind Heap.string?).isSome && ((h.child v "path").bind Heap.string?).isSome

def isPatch (h : Heap) : Val → Bool
  | .ref a => match h.cell? a with
    | some (.array []) => true
    | some (.array (first :: _)) => isOperation h first
    | _ => false
  | _ => false

def findPatch (h : Heap) (modeluri : String) : List Val → Option Val
  | [] => some .undefined
  | .undefined :: _ => none
  | .prim .null :: _ => none
  | mp :: rest =>
    if (h.child mp "modelUri").bind Heap.string? = some modeluri then some (property h mp "patch")
    else findPatch h modeluri rest

/-- `getPatch`, which throws when there is no list to look in. -/
def getPatch (h : Heap) (patches : Val) (modeluri : String) : Option Val :=
  match patches with
  | .ref a => match h.cell? a with
    | some (.array elems) => findPatch h modeluri elems
    | _ => none
  | _ => none

def patchToApply (h : Heap) (patch allPatches : Val) (modeluri : Option String) : Option Val :=
  match modeluri with
  | some modeluri => getPatch h allPatches modeluri
  | none => some (if isPatch h patch then patch else .undefined)

def patchModelOf (lib : JsonPatchLibrary) (patch allPatches : Val) (h : Heap) (oldModel : Val) (copy : Bool)
    (modeluri : Option String) : Heap.Applied :=
  match (if copy then lib.deepClone h oldModel else some (h, oldModel)) with
  | none => (h, none)
  | some (h, modelToPatch) =>
    match patchToApply h patch allPatches modeluri with
    | none => (h, none)
    | some patch => if truthy patch then lib.applyPatch h modelToPatch patch else (h, some modelToPatch)

structure ModelUpdateResult where
  success : Bool
  patch : Val
  patchModel : Option (Heap → Val → Bool → Option String → Heap.Applied)
  allPatches : Val

def updateResult (lib : JsonPatchLibrary) (h : Heap) (type : String) (data : Val) : ModelUpdateResult :=
  if type = MessageType.success.value then
    let patch := property h data "patch"
    let allPatches := property h data "allPatches"
    if truthy patch || truthy allPatches then
      { success := true, patch, patchModel := some (patchModelOf lib patch allPatches), allPatches }
    else { success := true, patch := .undefined, patchModel := none, allPatches := .undefined }
  else { success := false, patch := .undefined, patchModel := none, allPatches := .undefined }

end Reply

section Cloned

variable (lib : JsonPatchLibrary) {h h' : Heap} {patch allPatches model w : Val} {copy : Bool} {modeluri : Option String}

theorem patchModel_of_cloned (cloned : (if copy then lib.deepClone h model else some (h, model)) = some (h', w)) :
    patchModel lib h patch model copy = lib.applyPatch h' w patch := by simp only [patchModel, cloned]

theorem patchModelOf_of_cloned (cloned : (if copy then lib.deepClone h model else some (h, model)) = some (h', w)) :
    patchModelOf lib patch allPatches h model copy modeluri =
      match patchToApply h' patch allPatches modeluri with
      | none => (h', none)
      | some p => if truthy p then lib.applyPatch h' w p else (h', some w) := by
  cases chosen : patchToApply h' patch allPatches modeluri <;> simp only [patchModelOf, cloned, chosen]

end Cloned

section Guards

variable {h : Heap} {v : Val} {j : Json}

theorem isSome_string (j : Json) (key : String) : ((j.child key).bind Json.string?).isSome = isString j key := by
  rw [isString, hasProperty]
  cases j.child key with
  | none => rfl
  | some c =>
    cases c with
    | prim p => cases p <;> rfl
    | arr elems => rfl
    | obj props => rfl

theorem isOperation_denotes (d : h.Denotes v j) : isOperation h v = Operations.isOperation j := by
  rw [isOperation, Operations.isOperation, Heap.strings_of_denotes d, Heap.strings_of_denotes d, isSome_string, isSome_string]
  cases j with
  | prim p => rfl
  | arr elems => rfl
  | obj props => rfl

theorem ofChild_of_not_isOperation (other : Operations.isOperation j = false) :
    Operation.ofChild j.child Json.string? = .invalid := by
  unfold Operation.ofChild
  cases named : (j.child "op").bind Json.string? with
  | none => rfl
  | some op =>
    cases placed : (j.child "path").bind Json.string? with
    | none => rfl
    | some path =>
      have hasOp : isString j "op" = true := by rw [← isSome_string, named, Option.isSome_some]
      have hasPath : isString j "path" = true := by rw [← isSome_string, placed, Option.isSome_some]
      have object := is_of_hasProperty hasOp
      rw [Operations.isOperation, object, hasOp, hasPath] at other
      cases other

theorem isPatch_denotes (d : h.Denotes v j) : isPatch h v = Operations.isPatch j := by
  cases j with
  | prim p =>
    cases d.eq_prim
    rfl
  | obj props =>
    rcases d.of_obj with ⟨a, ps, rfl, found⟩
    simp [isPatch, found, Operations.isPatch]
  | arr elems =>
    rcases d.of_arr with ⟨a, vs, rfl, found, length⟩
    cases vs with
    | nil =>
      cases elems with
      | nil => simp [isPatch, found, Operations.isPatch]
      | cons first rest => cases length
    | cons v vs =>
      cases elems with
      | nil => cases length
      | cons first rest =>
        have edge : h.child (.ref a) (indexName 0) = some v := by simp [found, Cell.child]
        have below : (Json.arr (first :: rest)).child (indexName 0) = some first := by simp [Json.child]
        rcases d.child edge with ⟨c, below', denotes⟩
        cases below.symm.trans below'
        simp only [isPatch, found, Operations.isPatch, isOperation_denotes denotes]

end Guards

end ModelServer.Patches
