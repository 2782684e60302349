import ModelServer.TypeUtil.Encoding

namespace ModelServer.TypeUtil

open Js Relations

def renamedKey (format : JsonFormat) (key : String) : String :=
  if key = format.foreignKey then format.typeKey else key

mutual

/-- The document with the type key of every object renamed, and nothing else changed. -/
def retyped (format : JsonFormat) : Json → Json
  | .prim p => .prim p
  | .arr elems => .arr (retypedElems format elems)
  | .obj props => .obj (retypedProps format props)

def retypedElems (format : JsonFormat) : List Json → List Json
  | [] => []
  | e :: rest => retyped format e :: retypedElems format rest

def retypedProps (format : JsonFormat) : List (String × Json) → List (String × Json)
  | [] => []
  | (name, value) :: rest => (renamedKey format name, retyped format value) :: retypedProps format rest

end

theorem retypedElems_eq (format : JsonFormat) (elems : List Json) :
    retypedElems format elems = elems.map (retyped format) := by
  induction elems with
  | nil => rfl
  | cons e rest ih => rw [retypedElems, ih, List.map_cons]

section Moved

variable {α : Type} {format : JsonFormat} {props : List (String × α)}

def moved (format : JsonFormat) (props : List (String × α)) (key : String) : Option α :=
  if key = format.foreignKey then none else if key = format.typeKey then props.lookup format.foreignKey else props.lookup key

theorem moved_renamedKey (free : props.lookup format.typeKey = none) {key : String} {value : α} (found : props.lookup key = some value) :
    moved format props (renamedKey format key) = some value := by
  have distinct := format.foreignKey_ne
  by_cases foreign : key = format.foreignKey
  · subst foreign
    rw [renamedKey, if_pos rfl, moved, if_neg (Ne.symm distinct), if_pos rfl, found]
  · have other : key ≠ format.typeKey := by
      intro same
      subst same
      cases free.symm.trans found
    rw [renamedKey, if_neg foreign, moved, if_neg foreign, if_neg other, found]

theorem of_moved {key : String} {value : α} (found : moved format props key = some value) :
    ∃ name, props.lookup name = some value ∧ renamedKey format name = key := by
  rw [moved] at found
  split at found
  · cases found
  · rename_i foreign
    split at found
    · rename_i type
      exact ⟨_, found, by rw [renamedKey, if_pos rfl, type]⟩
    · exact ⟨key, found, if_neg foreign⟩

theorem moved_values (free : props.lookup format.typeKey = none) (P : α → Prop) :
    (∀ key c, moved format props key = some c → P c) ↔ ∀ key c, props.lookup key = some c → P c := by
  constructor
  · intro all key c found
    exact all _ c (moved_renamedKey free found)
  · intro all key c found
    rcases of_moved found with ⟨name, found', -⟩
    exact all name c found'

theorem lookup_copyEntries_plain (free : props.lookup format.typeKey = none) (plain : props.lookup "__proto__" = none)
    (key : String) : (copyEntries format.foreignKey format.typeKey none props).lookup key = moved format props key := by
  have own : ∀ name, (spread props).lookup name = props.lookup name := by
    intro name
    rw [lookup_spread]
    split
    · rename_i proto
      rw [proto, plain]
    · rfl
  rw [lookup_copyEntries, Option.or_none, own, own, moved]
  cases typed : props.lookup format.foreignKey with
  | none => grind
  | some value => rfl

end Moved

theorem lookup_retyped {format : JsonFormat} {props : List (String × Json)} (free : props.lookup format.typeKey = none)
    (key : String) : (retyped format (.obj props)).child key = (moved format props key).map (retyped format) := by
  have distinct := format.foreignKey_ne
  rw [retyped, Json.child]
  induction props with
  | nil => simp [moved, retypedProps]
  | cons entry rest ih =>
    rw [lookup_entry] at free
    split at free
    · cases free
    · rename_i other
      have later := ih free
      simp only [moved] at later ⊢
      simp only [retypedProps, lookup_entry, later, renamedKey]
      grind

theorem lookup_copied {format : JsonFormat} {props : List (String × Json)} (free : props.lookup format.typeKey = none)
    (plain : props.lookup "__proto__" = none) (key : String) :
    (copyEntries format.foreignKey format.typeKey (inheritedType format (.obj props)) props).lookup key =
      moved format props key := by
  have inherits : inheritedType format (.obj props) = none := by
    rw [inheritedType, Json.child, plain]
    rfl
  rw [inherits, lookup_copyEntries_plain free plain]

/-- No array that begins with an object or null has an array among its elements. -/
def SpreadsNoArray (j : Json) : Prop :=
  ∀ path elems, j.at? path = some (.arr elems) → beginsWithObject elems → ∀ e ∈ elems, ∀ es, e ≠ .arr es

theorem spreadsNoArray_iff (j : Json) : SpreadsNoArray j ↔
    (∀ elems, j = .arr elems → beginsWithObject elems → ∀ e ∈ elems, ∀ es, e ≠ .arr es) ∧
    ∀ name c, j.child name = some c → SpreadsNoArray c := by
  constructor
  · intro regular
    refine ⟨fun elems here => regular [] elems (congrArg some here), fun name c found path elems at_path => ?_⟩
    exact regular (name :: path) elems (by simpa [Json.at?, found] using at_path)
  · intro given path elems at_path
    rcases given with ⟨here, below⟩
    cases path with
    | nil => exact here elems (Option.some.inj at_path)
    | cons name path =>
      simp only [Json.at?] at at_path
      cases found : j.child name with
      | none => simp [found] at at_path
      | some c => exact below name c found path elems (by simpa [found] using at_path)

theorem SpreadsNoArray.prim (p : Prim) : SpreadsNoArray (.prim p) :=
  (spreadsNoArray_iff _).mpr ⟨nofun, nofun⟩

theorem SpreadsNoArray.arr {elems : List Json} (here : beginsWithObject elems → ∀ e ∈ elems, ∀ es, e ≠ .arr es)
    (below : ∀ e ∈ elems, SpreadsNoArray e) : SpreadsNoArray (.arr elems) :=
  (spreadsNoArray_iff _).mpr ⟨by rintro _ ⟨⟩; exact here, fun _ _ found => below _ (Json.mem_of_child_arr found)⟩

theorem SpreadsNoArray.obj {props : List (String × Json)} (below : ∀ entry ∈ props, SpreadsNoArray entry.2) :
    SpreadsNoArray (.obj props) :=
  (spreadsNoArray_iff _).mpr ⟨nofun, fun _ _ found => below _ (mem_of_lookup found)⟩

theorem same_iff_children {a b : Json} (shape : a.shape = b.shape) :
    a.Same b ↔ ∀ name, Option.Rel Json.Same (a.child name) (b.child name) :=
  ⟨fun same name => same.child name, Json.same_of_children shape⟩

/-- The value is copied as it is but for its type keys. -/
def OnlyRenamed (j : Json) : Prop := SpreadsNoArray j ∧ ¬ j.HasKey "__proto__"

theorem onlyRenamed_iff (j : Json) : OnlyRenamed j ↔
    (∀ elems, j = .arr elems → beginsWithObject elems → ∀ e ∈ elems, ∀ es, e ≠ .arr es) ∧
      (∀ props, j = .obj props → props.lookup "__proto__" = none) ∧ ∀ name c, j.child name = some c → OnlyRenamed c := by
  constructor
  · intro plain
    rcases plain with ⟨spreads, free⟩
    rcases (spreadsNoArray_iff j).mp spreads with ⟨here, below⟩
    refine ⟨here, fun props object => ?_, fun name c found => ⟨below name c found, Json.not_hasKey_child free found⟩⟩
    subst object
    exact Json.lookup_of_not_hasKey free
  · intro given
    rcases given with ⟨here, own, below⟩
    refine ⟨(spreadsNoArray_iff j).mpr ⟨here, fun name c found => (below name c found).1⟩, fun typed => ?_⟩
    rcases (Json.hasKey_iff _ _).mp typed with ⟨object, present⟩ | ⟨name, c, found, deeper⟩
    · cases j with
      | prim p => cases object
      | arr elems => cases object
      | obj props =>
        rw [Json.child, own props rfl] at present
        cases present
    · exact (below name c found).2 deeper

theorem copyJson_object_same_iff {format : JsonFormat} (place : Place) {props : List (String × Json)}
    (free : props.lookup format.typeKey = none)
    (each : ∀ name c, props.lookup name = some c →
      ((copyJson format .property c).Same (retyped format c) ↔ OnlyRenamed c)) :
    (copyJson format place (.obj props)).Same (retyped format (.obj props)) ↔ OnlyRenamed (.obj props) := by
  have spreads : Spread place (.obj props) := trivial
  have shapes : (copyJson format place (.obj props)).shape = (retyped format (.obj props)).shape := by
    rw [copyJson_spread format spreads]
    rfl
  rw [same_iff_children shapes, onlyRenamed_iff]
  cases proto : props.lookup "__proto__" with
  | some value =>
    -- the copy has no property '__proto__'
    have lost : (copyJson format place (.obj props)).child "__proto__" = none := by
      rw [child_copyJson_spread format spreads, lookup_copyEntries_proto (Ne.symm format.proto_ne.2)]
      rfl
    have kept : (retyped format (.obj props)).child "__proto__" = some (retyped format value) := by
      rw [lookup_retyped free, moved, if_neg format.proto_ne.1, if_neg format.proto_ne.2, proto, Option.map_some]
    refine iff_of_false (fun same => ?_) fun given => ?_
    · have related := same "__proto__"
      rw [lost, kept] at related
      cases related
    · cases (given.2.1 props rfl).symm.trans proto
  | none =>
    have values := moved_values free fun c => (copyJson format .property c).Same (retyped format c)
    have rewrite (key : String) : Option.Rel Json.Same ((copyJson format place (.obj props)).child key)
        ((retyped format (.obj props)).child key) ↔
          ∀ c, moved format props key = some c → (copyJson format .property c).Same (retyped format c) := by
      rw [child_copyJson_spread format spreads, Json.entries, lookup_copied free proto, lookup_retyped free, rel_map_iff]
    simp only [rewrite]
    rw [values]
    constructor
    · intro all
      refine ⟨?_, ?_, fun name c found => (each name c found).mp (all name c found)⟩
      · intro _ same
        cases same
      · intro _ same
        cases same
        exact proto
    · intro given name c found
      exact (each name c found).mpr (given.2.2 name c found)

theorem copyJson_array_same_iff {format : JsonFormat} {elems : List Json}
    (each : ∀ name c, (Json.arr elems).child name = some c →
      ((copyJson format (elementPlace elems) c).Same (retyped format c) ↔
        (elementPlace elems = .element → ∀ es, c ≠ .arr es) ∧ OnlyRenamed c)) :
    (copyJson format .property (.arr elems)).Same (retyped format (.arr elems)) ↔ OnlyRenamed (.arr elems) := by
  have spread : elementPlace elems = .element ↔ beginsWithObject elems = true := by
    rw [elementPlace]
    cases beginsWithObject elems <;> simp
  rw [copyJson_array, retyped, retypedElems_eq, same_iff_children (by simp [Json.shape]), onlyRenamed_iff]
  simp only [Json.child, child_map, rel_map_iff]
  constructor
  · intro all
    refine ⟨?_, ?_, fun name c found => ((each name c found).mp (all name c found)).2⟩
    · intro _ same begins e member
      cases same
      rcases List.mem_iff_getElem?.mp member with ⟨i, at_i⟩
      have found : (Json.arr elems).child (indexName i) = some e := by simp [Json.child, at_i]
      exact ((each _ e found).mp (all _ e found)).1 (spread.mpr begins)
    · intro _ same
      cases same
  · intro given name c found
    rcases given with ⟨here, -, below⟩
    refine (each name c found).mpr ⟨fun element => ?_, below name c found⟩
    exact here elems rfl (spread.mp element) c (Json.mem_of_child_arr found)

theorem OnlyRenamed.prim (p : Prim) : OnlyRenamed (.prim p) := ⟨.prim p, Json.not_hasKey_prim p _⟩

/-- `copy` only renames exactly where it spreads no array and loses no property `__proto__`. -/
theorem copyJson_same_iff (format : JsonFormat) (j : Json) (untyped : ¬ j.HasKey format.typeKey) :
    ∀ place, (copyJson format place j).Same (retyped format j) ↔
      (place = .element → ∀ es, j ≠ .arr es) ∧ OnlyRenamed j := by
  induction j using Json.child_induct with
  | step j ih =>
  intro place
  have each : ∀ place name c, j.child name = some c → ((copyJson format place c).Same (retyped format c) ↔
      (place = .element → ∀ es, c ≠ .arr es) ∧ OnlyRenamed c) :=
    fun place name c found => ih name c found (Json.not_hasKey_child untyped found) place
  cases j with
  | prim p => simp [copyJson, retyped, Json.Same.refl, OnlyRenamed.prim]
  | obj props =>
    rw [copyJson_object_same_iff place (Json.lookup_of_not_hasKey untyped)]
    · simp
    · intro name c found
      simpa using each .property name c found
  | arr elems =>
    cases place with
    | element =>
      constructor
      · intro same
        have shape := same.shape
        simp [copyJson, retyped, Json.shape] at shape
      · intro given
        rcases given with ⟨notArray, -⟩
        exact absurd rfl (notArray rfl elems)
    | property =>
      rw [copyJson_array_same_iff (each (elementPlace elems))]
      simp

theorem converted_same_iff {format : JsonFormat} {j : Json} (untyped : ¬ j.HasKey format.typeKey) :
    (∃ j', converted format j = some j' ∧ j'.Same (retyped format j)) ↔ (∃ props, j = .obj props) ∧ OnlyRenamed j := by
  have copied := copyJson_same_iff format j untyped .element
  cases j with
  | prim p => simp [converted, untyped]
  | arr elems => simpa [converted, untyped] using fun same => (copied.mp same).1 rfl elems rfl
  | obj props => simpa [converted, untyped] using copied

theorem encodes_renamed_iff {text : JsonText} {format : JsonFormat} {h : Heap} {object : Payload} {j : Json}
    (means : Means text h object j) (untyped : ¬ j.HasKey format.typeKey) :
    EncodesAs text format h object (retyped format j) ↔ (∃ props, j = .obj props) ∧ OnlyRenamed j :=
  (encodesAs_iff means _).trans (converted_same_iff untyped)

/-- Where no object has the key of the format, encoding renames the other key and changes nothing else, exactly for an
    object in which no array that begins with an object or null holds an array and no object has a property
    `__proto__`. -/
theorem encode_renames_iff {text : JsonText} {format : JsonFormat} {h : Heap} {object : Payload} {j : Json}
    (means : Means text h object j) (untyped : ¬ j.HasKey format.typeKey) :
    EncodesAs text format h object (retyped format j) ↔
      (∃ props, j = .obj props) ∧ SpreadsNoArray j ∧ ¬ j.HasKey "__proto__" := encodes_renamed_iff means untyped

def taggedItem : Json :=
  .obj [("$type", .prim (.string "Item")), ("tags", .arr [.obj [("$type", .prim (.string "Tag"))], .prim .null])]

theorem encode_renames_taggedItem :
    EncodesAs plainText .json ⟨[]⟩ (.text (plainText.stringify taggedItem))
      (.obj [("eClass", .prim (.string "Item")), ("tags", .arr [.obj [("eClass", .prim (.string "Tag"))], .prim .null])]) := by
  have means : Means plainText ⟨[]⟩ (.text (plainText.stringify taggedItem)) taggedItem :=
    plainText.parse_stringify taggedItem
  have untyped : ¬ taggedItem.HasKey JsonFormat.json.typeKey := Json.not_hasKey (by decide)
  refine (encode_renames_iff means untyped).mpr ⟨⟨_, rfl⟩, ?_, Json.not_hasKey (by decide)⟩
  have tag : SpreadsNoArray (.obj [("$type", .prim (.string "Tag"))]) := .obj (by simp [SpreadsNoArray.prim])
  have tags : SpreadsNoArray (.arr [.obj [("$type", .prim (.string "Tag"))], .prim .null]) :=
    .arr (by simp) (by simp [SpreadsNoArray.prim, tag])
  exact .obj (by simp [SpreadsNoArray.prim, tags])

def nestedItems : Json :=
  .obj [("$type", .prim (.string "List")), ("items", .arr [.obj [], .arr [.prim (.number 1)]])]

/-- The inner array of the items comes back as an object with the indices as its keys. -/
theorem encode_spreads_nestedItems :
    Means plainText (store ⟨[]⟩ nestedItems).1 (.value (store ⟨[]⟩ nestedItems).2) nestedItems ∧
    ¬ nestedItems.HasKey "eClass" ∧
    EncodesAs plainText .json (store ⟨[]⟩ nestedItems).1 (.value (store ⟨[]⟩ nestedItems).2)
      (.obj [("items", .arr [.obj [], .obj [("0", .prim (.number 1))]]), ("eClass", .prim (.string "List"))]) ∧
    ¬ EncodesAs plainText .json (store ⟨[]⟩ nestedItems).1 (.value (store ⟨[]⟩ nestedItems).2)
      (retyped .json nestedItems) := by
  have means : Means plainText (store ⟨[]⟩ nestedItems).1 (.value (store ⟨[]⟩ nestedItems).2) nestedItems :=
    (store_spec nestedItems _).denotes
  have untyped : ¬ nestedItems.HasKey JsonFormat.json.typeKey := Json.not_hasKey (by decide)
  refine ⟨means, untyped, (encodesAs_iff means _).mpr ⟨copyJson .json .element nestedItems, ?_, ?_⟩, ?_⟩
  · exact if_neg untyped
  · exact .refl _
  · rw [encodesAs_iff means, converted_same_iff untyped]
    intro given
    rcases given with ⟨-, regular⟩
    exact regular.1 ["items"] _ rfl rfl (.arr [.prim (.number 1)]) (by simp) _ rfl

end ModelServer.TypeUtil
