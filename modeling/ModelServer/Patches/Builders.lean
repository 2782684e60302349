import ModelServer.Js.Text
import ModelServer.Library.Lists
import ModelServer.Patches.PatchModel

namespace ModelServer.Patches
open Js Message

section Functions

/-- What the code takes from urijs: `modeluri.clone().fragment(id).toString()`. Apart from the empty fragment, and
    one that already has its mark, it is appended to the text of the URI without a fragment. -/
structure FragmentLibrary (U : Type) where
  withFragment : U → Val → String
  document : U → String
  document_plain : ∀ modeluri, '#' ∉ (document modeluri).toList
  withFragment_text : ∀ modeluri id, id ≠ "" → id.toList.head? ≠ some '#' →
    withFragment modeluri (.prim (.string id)) = document modeluri ++ "#" ++ id

/-- An operation as it is built: an added value is a new object with these properties. -/
inductive BuiltOperation
  | replace (path : String) (value : Val)
  | add (path : String) (value : List (String × Val))
  | remove (path : String)
  deriving DecidableEq, Repr

inductive Op
  | replace
  | add
  | remove
  deriving DecidableEq, Repr

namespace BuiltOperation

def op : BuiltOperation → Op
  | replace _ _ => .replace
  | add _ _ => .add
  | remove _ => .remove

def path : BuiltOperation → String
  | replace path _ | add path _ | remove path => path

end BuiltOperation

def ModelServerReferenceDescriptionV2.is (h : Heap) (object : Val) : Bool :=
  ((h.child object "$type").bind Heap.string?).isSome && ((h.child object "$ref").bind Heap.string?).isSome

/-- The property that identifies an object: references have the identity of what they refer to. -/
def identity (h : Heap) (object : Val) : Val :=
  if ModelServerReferenceDescriptionV2.is h object then property h object "$ref" else property h object "$id"

def spreadInto (props : List (String × Val)) (h : Heap) (attributes : Val) : List (String × Val) :=
  match attributes with
  | .ref a => match h.cell? a with
    | some cell => (names (spread cell.entries)).foldl (fun props name => put name (cell.get name) props) props
    | none => props
  | _ => props

def findIndex (h : Heap) (object : Val) (feature : String) (value : Val) : Option Nat :=
  match property h object feature with
  | .ref a => match h.cell? a with
    | some (.array elems) => elems.idxOf? value
    | _ => none
  | _ => none

variable {U : Type} (lib : FragmentLibrary U) (h : Heap) (modeluri : U)

def getObjectPath (object : Val) : String := lib.withFragment modeluri (identity h object)

def getPropertyPath (object : Val) (feature : String) (index : Option Nat) : String :=
  let indexSuffix := match index with
    | some index => "/" ++ indexName index
    | none => ""
  getObjectPath lib h modeluri object ++ "/" ++ feature ++ indexSuffix

def replace (object : Val) (feature : String) (value : Val) : BuiltOperation :=
  .replace (getPropertyPath lib h modeluri object feature none) value

def create (parent : Val) (feature type : String) (attributes : Val) : BuiltOperation :=
  .add (getPropertyPath lib h modeluri parent feature none) (spreadInto [("$type", .prim (.string type))] h attributes)

def add (parent : Val) (feature : String) (value : Val) : BuiltOperation :=
  .add (getPropertyPath lib h modeluri parent feature none)
    [("$type", property h value "$type"), ("$id", .prim (.string (getObjectPath lib h modeluri value)))]

def deleteElement (object : Val) : BuiltOperation := .remove (getObjectPath lib h modeluri object)

def removeValueAt (object : Val) (feature : String) (index : Nat) : BuiltOperation :=
  .remove (getPropertyPath lib h modeluri object feature (some index))

def removeValue (object : Val) (feature : String) (value : Val) : Option BuiltOperation :=
  (findIndex h object feature value).map (removeValueAt lib h modeluri object feature)

def removeObject (objectToRemove : Val) : BuiltOperation := .remove (getObjectPath lib h modeluri objectToRemove)

end Functions

section Lookups

variable {h : Heap} {object value : Val} {feature : String} {index : Nat}

theorem idxOf_eq_some {elems : List Val} (found : elems.idxOf? value = some index) :
    elems[index]? = some value ∧ ∀ i < index, elems[i]? ≠ some value := by
  rcases List.idxOf?_eq_some_iff.mp found with ⟨bound, here, earlier⟩
  refine ⟨List.getElem?_eq_some_iff.mpr ⟨bound, here⟩, fun i before same => earlier i before ?_⟩
  exact (List.getElem?_eq_some_iff.mp same).2

theorem findIndex_eq_some (found : findIndex h object feature value = some index) :
    ∃ a elems, h.child object feature = some (.ref a) ∧ h.cell? a = some (.array elems) ∧
      elems[index]? = some value ∧ ∀ i < index, elems[i]? ≠ some value := by
  unfold findIndex at found
  split at found
  · rename_i a holds
    split at found
    · rename_i elems cell
      have edge : h.child object feature = some (.ref a) := by
        rw [property] at holds
        cases below : h.child object feature with
        | none =>
          rw [below] at holds
          cases holds
        | some v =>
          rw [below] at holds
          rw [← holds, Option.getD_some]
      exact ⟨a, elems, edge, cell, idxOf_eq_some found⟩
    · cases found
  · cases found

theorem findIndex_of_mem {a : Nat} {elems : List Val} (edge : h.child object feature = some (.ref a))
    (cell : h.cell? a = some (.array elems)) (member : value ∈ elems) : ∃ index, findIndex h object feature value = some index := by
  have holds : property h object feature = .ref a := by rw [property, edge, Option.getD_some]
  have looked : findIndex h object feature value = elems.idxOf? value := by simp only [findIndex, holds, cell]
  rw [looked]
  cases found : elems.idxOf? value with
  | some index => exact ⟨index, rfl⟩
  | none =>
    exact absurd member (List.idxOf?_eq_none_iff.mp found)

theorem lookup_assigned (cell : Cell) (keys : List String) (props : List (String × Val)) (key : String) :
    (keys.foldl (fun props name => put name (cell.get name) props) props).lookup key =
      if key ∈ keys then some (cell.get key) else props.lookup key := by
  induction keys generalizing props with
  | nil => simp
  | cons name keys ih =>
    rw [List.foldl_cons, ih, lookup_put]
    by_cases later : key ∈ keys
    · simp [later]
    · by_cases here : key = name
      · simp [here]
      · simp [here, later]

/-- Attributes win over the properties before them, so a type among them replaces that of the call. -/
theorem lookup_spreadInto {a : Nat} {cell : Cell} (found : h.cell? a = some cell) (props : List (String × Val)) (key : String) :
    (spreadInto props h (.ref a)).lookup key =
      if key = "__proto__" then props.lookup key else (cell.child key).or (props.lookup key) := by
  have assigned : spreadInto props h (.ref a) =
      (names (spread cell.entries)).foldl (fun props name => put name (cell.get name) props) props := by
    simp only [spreadInto, found]
  have listed : key ∈ names (spread cell.entries) ↔ key ≠ "__proto__" ∧ (cell.child key).isSome := by
    rw [mem_names, lookup_spread, Cell.lookup_entries]
    split <;> simp [*]
  rw [assigned, lookup_assigned]
  by_cases proto : key = "__proto__"
  · rw [if_pos proto, if_neg fun member => (listed.mp member).1 proto]
  · rw [if_neg proto]
    cases edge : cell.child key with
    | none =>
      rw [if_neg fun member => by simpa [edge] using (listed.mp member).2]
      rfl
    | some v =>
      rw [if_pos (listed.mpr ⟨proto, by rw [edge]; rfl⟩), Cell.get_of_child edge]
      rfl

end Lookups

section Calls

inductive Call
  | replace (object : Val) (feature : String) (value : Val)
  | create (parent : Val) (feature type : String) (attributes : Val)
  | add (parent : Val) (feature : String) (value : Val)
  | deleteElement (object : Val)
  | removeObject (objectToRemove : Val)
  | removeValueAt (object : Val) (feature : String) (index : Nat)
  | removeValue (object : Val) (feature : String) (value : Val)
  deriving DecidableEq, Repr

namespace Call

def build {U : Type} (lib : FragmentLibrary U) (h : Heap) (modeluri : U) : Call → Option BuiltOperation
  | replace object feature value => some (Patches.replace lib h modeluri object feature value)
  | create parent feature type attributes => some (Patches.create lib h modeluri parent feature type attributes)
  | add parent feature value => some (Patches.add lib h modeluri parent feature value)
  | deleteElement object => some (Patches.deleteElement lib h modeluri object)
  | removeObject objectToRemove => some (Patches.removeObject lib h modeluri objectToRemove)
  | removeValueAt object feature index => some (Patches.removeValueAt lib h modeluri object feature index)
  | removeValue object feature value => Patches.removeValue lib h modeluri object feature value

def object : Call → Val
  | replace object _ _ | deleteElement object | removeValueAt object _ _ | removeValue object _ _ => object
  | create parent _ _ _ | add parent _ _ => parent
  | removeObject objectToRemove => objectToRemove

def feature? : Call → Option String
  | replace _ feature _ | create _ feature _ _ | add _ feature _ | removeValueAt _ feature _ | removeValue _ feature _ =>
    some feature
  | deleteElement _ | removeObject _ => none

def op : Call → Op
  | replace _ _ _ => .replace
  | create _ _ _ _ | add _ _ _ => .add
  | deleteElement _ | removeObject _ | removeValueAt _ _ _ | removeValue _ _ _ => .remove

end Call

end Calls

section Addresses

inductive Place
  | element
  | property (feature : String)
  | value (feature : String) (index : Nat)
  deriving DecidableEq, Repr

namespace Place

def suffix : Place → String
  | element => ""
  | property feature => "/" ++ feature
  | value feature index => "/" ++ feature ++ "/" ++ indexName index

def feature? : Place → Option String
  | element => none
  | property feature | value feature _ => some feature

def isProperty : Place → Bool
  | property _ => true
  | _ => false

theorem append_property (id feature : String) : id ++ (property feature).suffix = id ++ "/" ++ feature := by
  rw [suffix, String.append_assoc]

theorem append_value (id feature : String) (index : Nat) :
    id ++ (value feature index).suffix = id ++ "/" ++ feature ++ "/" ++ indexName index := by
  simp only [suffix, String.append_assoc]

end Place

structure Address where
  document : String
  id : String
  place : Place
  deriving DecidableEq, Repr

def Address.path (a : Address) : String := a.document ++ "#" ++ a.id ++ a.place.suffix

structure Vocabulary where
  ids : Set String
  features : Set String
  id_given : ∀ id ∈ ids, id ≠ "" ∧ id.toList.head? ≠ some '#'
  feature_plain : ∀ feature ∈ features, '/' ∉ feature.toList

namespace Vocabulary

variable (vocabulary : Vocabulary)

structure Has (a : Address) : Prop where
  document : '#' ∉ a.document.toList
  id : a.id ∈ vocabulary.ids
  feature : ∀ feature, a.place.feature? = some feature → feature ∈ vocabulary.features

/-- No identity is that of another object with a position behind it. -/
def Unambiguous : Prop :=
  ∀ id ∈ vocabulary.ids, ∀ feature ∈ vocabulary.features, ∀ index,
    id ++ "/" ++ feature ++ "/" ++ indexName index ∉ vocabulary.ids

end Vocabulary

theorem toList_separated (left right : String) : (left ++ "/" ++ right).toList = left.toList ++ '/' :: right.toList := by
  rw [String.toList_append, String.toList_append, List.append_assoc]
  rfl

theorem indexName_plain (index : Nat) : '/' ∉ (indexName index).toList := by
  intro member
  have digit := isDigit_writeNat index '/' member
  cases digit

/-- A text without a separator behind the last one can be read back. -/
theorem separated_injective {left right left' right' : String} (same : left ++ "/" ++ right = left' ++ "/" ++ right')
    (plain : '/' ∉ right.toList) (plain' : '/' ∉ right'.toList) : left = left' ∧ right = right' := by
  have lists := congrArg String.toList same
  rw [toList_separated, toList_separated] at lists
  rcases Lists.append_last_separator lists plain plain' with ⟨before, after⟩
  exact ⟨String.toList_injective before, String.toList_injective after⟩

theorem document_injective {document document' id id' : String} (same : document ++ "#" ++ id = document' ++ "#" ++ id')
    (plain : '#' ∉ document.toList) (plain' : '#' ∉ document'.toList) : document = document' ∧ id = id' := by
  have lists := congrArg String.toList same
  simp only [String.toList_append, List.append_assoc] at lists
  rcases Lists.append_first_separator lists plain plain' with ⟨before, after⟩
  exact ⟨String.toList_injective before, String.toList_injective after⟩

/-- Identities whose last segment is no position are unambiguous, as those that name their containment feature. -/
theorem Vocabulary.unambiguous_of_segments {vocabulary : Vocabulary}
    (segments : ∀ id ∈ vocabulary.ids, ∃ left last, id = left ++ "/" ++ last ∧ '/' ∉ last.toList ∧ indexOf? last = none) :
    vocabulary.Unambiguous := by
  intro id _ feature _ index clash
  rcases segments _ clash with ⟨left, last, same, plain, word⟩
  rcases separated_injective same (indexName_plain index) plain with ⟨-, rfl⟩
  rw [indexOf_indexName] at word
  cases word

variable {vocabulary : Vocabulary} {a a' : Address}

theorem suffix_injective (unambiguous : vocabulary.Unambiguous) (has : vocabulary.Has a) (has' : vocabulary.Has a')
    (alike : a.place.isProperty = a'.place.isProperty)
    (same : a.id ++ a.place.suffix = a'.id ++ a'.place.suffix) : a.id = a'.id ∧ a.place = a'.place := by
  rcases a with ⟨document, id, place⟩
  rcases a' with ⟨document', id', place'⟩
  have plain (feature : String) (named : place.feature? = some feature) : '/' ∉ feature.toList :=
    vocabulary.feature_plain feature (has.feature feature named)
  have plain' (feature : String) (named : place'.feature? = some feature) : '/' ∉ feature.toList :=
    vocabulary.feature_plain feature (has'.feature feature named)
  cases place with
  | element =>
    cases place' with
    | element => exact ⟨by simpa only [Place.suffix, String.append_empty] using same, rfl⟩
    | property feature => cases alike
    | value feature index =>
      rw [Place.append_value, Place.suffix, String.append_empty] at same
      have other := unambiguous id' has'.id feature (has'.feature feature rfl) index
      rw [← same] at other
      exact absurd has.id other
  | property feature =>
    cases place' with
    | element => cases alike
    | property feature' =>
      rw [Place.append_property, Place.append_property] at same
      rcases separated_injective same (plain feature rfl) (plain' feature' rfl) with ⟨rfl, rfl⟩
      exact ⟨rfl, rfl⟩
    | value feature' index => cases alike
  | value feature index =>
    cases place' with
    | element =>
      rw [Place.append_value, Place.suffix, String.append_empty] at same
      have other := unambiguous id has.id feature (has.feature feature rfl) index
      rw [same] at other
      exact absurd has'.id other
    | property feature' => cases alike
    | value feature' index' =>
      rw [Place.append_value, Place.append_value] at same
      rcases separated_injective same (indexName_plain index) (indexName_plain index') with ⟨features, indices⟩
      rcases separated_injective features (plain feature rfl) (plain' feature' rfl) with ⟨rfl, rfl⟩
      rw [indexName_injective indices]
      exact ⟨rfl, rfl⟩

theorem path_injective (unambiguous : vocabulary.Unambiguous) (has : vocabulary.Has a) (has' : vocabulary.Has a')
    (alike : a.place.isProperty = a'.place.isProperty) (same : a.path = a'.path) : a = a' := by
  have fragments : a.document ++ "#" ++ (a.id ++ a.place.suffix) = a'.document ++ "#" ++ (a'.id ++ a'.place.suffix) := by
    rw [← String.append_assoc, ← String.append_assoc]
    exact same
  rcases document_injective fragments has.document has'.document with ⟨document, rest⟩
  rcases suffix_injective unambiguous has has' alike rest with ⟨id, place⟩
  cases a
  cases a'
  rw [Address.mk.injEq]
  exact ⟨document, id, place⟩

end Addresses

section Effects

structure Known (vocabulary : Vocabulary) (h : Heap) (call : Call) : Prop where
  object : ∃ id ∈ vocabulary.ids, identity h call.object = .prim (.string id)
  feature : ∀ feature, call.feature? = some feature → feature ∈ vocabulary.features

def text : Val → String
  | .prim (.string s) => s
  | _ => ""

def Call.place? (h : Heap) : Call → Option Place
  | replace _ feature _ | create _ feature _ _ | add _ feature _ => some (.property feature)
  | deleteElement _ | removeObject _ => some .element
  | removeValueAt _ feature index => some (.value feature index)
  | removeValue object feature value => (findIndex h object feature value).map (.value feature)

variable {U : Type} (lib : FragmentLibrary U)

def effect (h : Heap) (modeluri : U) (call : Call) : Option (Op × Address) :=
  (call.place? h).map fun place => (call.op, ⟨lib.document modeluri, text (identity h call.object), place⟩)

def effects (h : Heap) (calls : List (U × Call)) : List (Op × Address) :=
  calls.filterMap fun call => effect lib h call.1 call.2

def builtPatch (h : Heap) (calls : List (U × Call)) : List BuiltOperation :=
  calls.filterMap fun call => call.2.build lib h call.1

/-- The operations as a receiver tells them apart: what is to be done, and where. -/
def header (operation : BuiltOperation) : Op × String := (operation.op, operation.path)

variable {lib} {vocabulary : Vocabulary} {h h' : Heap} {modeluri : U} {call : Call}

theorem getObjectPath_of_identity {object : Val} {id : String} (known : id ∈ vocabulary.ids)
    (identified : identity h object = .prim (.string id)) :
    getObjectPath lib h modeluri object = lib.document modeluri ++ "#" ++ id := by
  rcases vocabulary.id_given id known with ⟨given, unmarked⟩
  rw [getObjectPath, identified]
  exact lib.withFragment_text modeluri id given unmarked

def placePath (lib : FragmentLibrary U) (h : Heap) (modeluri : U) (object : Val) : Place → String
  | .element => getObjectPath lib h modeluri object
  | .property feature => getPropertyPath lib h modeluri object feature none
  | .value feature index => getPropertyPath lib h modeluri object feature (some index)

theorem placePath_of_identity {object : Val} {id : String} (known : id ∈ vocabulary.ids)
    (identified : identity h object = .prim (.string id)) (place : Place) :
    placePath lib h modeluri object place = (⟨lib.document modeluri, id, place⟩ : Address).path := by
  have path : getObjectPath lib h modeluri object = lib.document modeluri ++ "#" ++ id :=
    getObjectPath_of_identity known identified
  cases place with
  | element => rw [placePath, path, Address.path, Place.suffix, String.append_empty]
  | property feature =>
    simp only [placePath, getPropertyPath, path, String.append_empty, Address.path, Place.append_property]
  | value feature index =>
    simp only [placePath, getPropertyPath, path, Address.path, Place.append_value, String.append_assoc]

theorem build_placePath (call : Call) :
    (call.build lib h modeluri).map header =
      (call.place? h).map fun place => (call.op, placePath lib h modeluri call.object place) := by
  cases call with
  | replace object feature value => rfl
  | create parent feature type attributes => rfl
  | add parent feature value => rfl
  | deleteElement object => rfl
  | removeObject objectToRemove => rfl
  | removeValueAt object feature index => rfl
  | removeValue object feature value =>
    rw [Call.build, removeValue, Call.place?, Option.map_map, Option.map_map]
    rfl

theorem build_header (known : Known vocabulary h call) :
    (call.build lib h modeluri).map header =
      (effect lib h modeluri call).map fun effect => (effect.1, effect.2.path) := by
  rcases known.object with ⟨id, member, identified⟩
  have text_id : text (identity h call.object) = id := by rw [identified, text]
  rw [build_placePath, effect, Option.map_map, text_id]
  refine Option.map_congr fun place _ => ?_
  rw [placePath_of_identity member identified]
  rfl

theorem patch_header {calls : List (U × Call)} (known : ∀ call ∈ calls, Known vocabulary h call.2) :
    (builtPatch lib h calls).map header = (effects lib h calls).map fun effect => (effect.1, effect.2.path) := by
  rw [builtPatch, effects, List.map_filterMap, List.map_filterMap]
  exact List.filterMap_congr fun call member => build_header (known call member)

theorem effect_has (known : Known vocabulary h call) {op : Op} {a : Address}
    (about : effect lib h modeluri call = some (op, a)) :
    vocabulary.Has a ∧ (a.place.isProperty = true ↔ op ≠ .remove) := by
  rcases known.object with ⟨id, member, identified⟩
  rcases Option.map_eq_some_iff.mp about with ⟨place, placed, same⟩
  cases same
  have text_id : text (identity h call.object) = id := by rw [identified, text]
  refine ⟨⟨lib.document_plain modeluri, by rw [text_id]; exact member, ?_⟩, ?_⟩
  · intro feature named
    apply known.feature feature
    cases call with
    | removeValue object feature' value =>
      rcases Option.map_eq_some_iff.mp placed with ⟨index, -, rfl⟩
      exact named
    | _ =>
      cases placed
      exact named
  · cases call with
    | removeValue object feature value =>
      rcases Option.map_eq_some_iff.mp placed with ⟨index, -, rfl⟩
      simp [Place.isProperty, Call.op]
    | _ =>
      cases placed
      simp [Place.isProperty, Call.op]

theorem effects_of_patch (unambiguous : vocabulary.Unambiguous) {calls calls' : List (U × Call)}
    (known : ∀ call ∈ calls, Known vocabulary h call.2) (known' : ∀ call ∈ calls', Known vocabulary h' call.2)
    (same : (builtPatch lib h calls).map header = (builtPatch lib h' calls').map header) :
    effects lib h calls = effects lib h' calls' := by
  rw [patch_header known, patch_header known'] at same
  have sound {h : Heap} {calls : List (U × Call)} (known : ∀ call ∈ calls, Known vocabulary h call.2) :
      ∀ effect ∈ effects lib h calls,
        vocabulary.Has effect.2 ∧ (effect.2.place.isProperty = true ↔ effect.1 ≠ .remove) := by
    intro effect member
    rcases List.mem_filterMap.mp member with ⟨call, listed, about⟩
    exact effect_has (known call listed) about
  refine Lists.map_injective_on ?_ (sound known) (sound known') same
  intro effect effect' valid valid' equal
  rcases Prod.mk.inj equal with ⟨ops, paths⟩
  have alike : effect.2.place.isProperty = effect'.2.place.isProperty := by
    rw [Bool.eq_iff_iff, valid.2, valid'.2, ops]
  exact Prod.ext ops (path_injective unambiguous valid.1 valid'.1 alike paths)

def identified (id : String) : Heap := ⟨[.object [("$type", .prim (.string "")), ("$id", .prim (.string id))]]⟩

theorem identity_identified (id : String) : identity (identified id) (.ref 0) = .prim (.string id) := by rfl

theorem effects_single {id : String} {call : Call} (object : call.object = .ref 0) {place : Place}
    (placed : call.place? (identified id) = some place) :
    effects lib (identified id) [(modeluri, call)] = [(call.op, ⟨lib.document modeluri, id, place⟩)] := by
  rw [effects, List.filterMap_cons, effect, placed, Option.map_some, object, identity_identified]
  rfl

def coffeeFragments : FragmentLibrary Unit where
  withFragment _ id := "SuperBrewer3000.coffee#" ++ text id
  document _ := "SuperBrewer3000.coffee"
  document_plain _ := by decide
  withFragment_text _ _ _ _ := rfl

def coffeeVocabulary : Vocabulary where
  ids := {"//@workflows.0", "//@workflows.0/@nodes.1"}
  features := {"name", "nodes"}
  id_given := by
    rintro id (rfl | rfl) <;> decide
  feature_plain := by
    rintro feature (rfl | rfl) <;> decide

end Effects

end ModelServer.Patches
