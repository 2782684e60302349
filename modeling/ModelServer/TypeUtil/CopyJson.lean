import ModelServer.TypeUtil.Encode

namespace ModelServer

open Js Relations

def JsonFormat.name : JsonFormat → Format
  | .json => FORMAT_JSON_V1
  | .jsonV2 => FORMAT_JSON_V2

def JsonFormat.typeKey : JsonFormat → String
  | .json => "eClass"
  | .jsonV2 => "$type"

def JsonFormat.foreignKey : JsonFormat → String
  | .json => "$type"
  | .jsonV2 => "eClass"

theorem JsonFormat.foreignKey_ne (format : JsonFormat) : format.foreignKey ≠ format.typeKey := by
  cases format <;> decide

theorem JsonFormat.proto_ne (format : JsonFormat) : "__proto__" ≠ format.foreignKey ∧ "__proto__" ≠ format.typeKey := by
  cases format <;> decide

namespace TypeUtil

section Entries

variable {α β : Type} {source target : String}

theorem lookup_copyEntries (source target : String) (inherited : Option α) (entries : List (String × α)) (key : String) :
    (copyEntries source target inherited entries).lookup key =
      match ((spread entries).lookup source).or inherited with
      | some value => if key = source then none else if key = target then some value else (spread entries).lookup key
      | none => (spread entries).lookup key := by
  simp only [copyEntries]
  cases ((spread entries).lookup source).or inherited with
  | none => rfl
  | some value => simp only [lookup_remove, lookup_put]

theorem lookup_of_spread {entries : List (String × α)} {key : String} {value : α}
    (found : (spread entries).lookup key = some value) : entries.lookup key = some value := by
  rw [lookup_spread] at found
  split at found
  · cases found
  · exact found

theorem child_of_copyEntries {inherited : Option α} {entries : List (String × α)} {key : String} {value : α}
    (found : (copyEntries source target inherited entries).lookup key = some value) :
    (∃ key', entries.lookup key' = some value) ∨ inherited = some value := by
  rw [lookup_copyEntries] at found
  cases typed : ((spread entries).lookup source).or inherited with
  | none =>
    rw [typed] at found
    exact .inl ⟨key, lookup_of_spread found⟩
  | some v =>
    simp only [typed] at found
    split at found
    · cases found
    · split at found
      · cases found
        rcases Option.or_eq_some_iff.mp typed with own | ⟨-, below⟩
        · exact .inl ⟨source, lookup_of_spread own⟩
        · exact .inr below
      · exact .inl ⟨key, lookup_of_spread found⟩

theorem copyEntries_rel {R : α → β → Prop} {entries : List (String × α)} {entries' : List (String × β)}
    {inherited : Option α} {inherited' : Option β}
    (related : ∀ key, Option.Rel R (entries.lookup key) (entries'.lookup key)) (below : Option.Rel R inherited inherited')
    (source target key : String) :
    Option.Rel R ((copyEntries source target inherited entries).lookup key)
      ((copyEntries source target inherited' entries').lookup key) := by
  have spreads : ∀ key, Option.Rel R ((spread entries).lookup key) ((spread entries').lookup key) := by
    intro key
    rw [lookup_spread, lookup_spread]
    split
    · exact .none
    · exact related key
  have typed := rel_or (spreads source) below
  rw [lookup_copyEntries, lookup_copyEntries]
  revert typed
  cases ((spread entries).lookup source).or inherited <;> cases ((spread entries').lookup source).or inherited' <;> intro typed
  · exact spreads key
  · cases typed
  · cases typed
  · cases typed with
    | some value =>
      dsimp only
      split
      · exact .none
      · split
        · exact .some value
        · exact spreads key

theorem copyEntries_covers {inherited : Option α} {entries : List (String × α)} (free : entries.lookup target = none)
    {key : String} {value : α} (plain : key ≠ "__proto__") (found : entries.lookup key = some value) :
    (copyEntries source target inherited entries).lookup (if key = source then target else key) = some value := by
  have own : (spread entries).lookup key = some value := by rw [lookup_spread, if_neg plain, found]
  rw [lookup_copyEntries]
  by_cases moved : key = source
  · subst moved
    have distinct : target ≠ key := by
      intro same
      subst same
      cases free.symm.trans found
    simp [own, distinct]
  · have other : key ≠ target := by
      intro same
      subst same
      cases free.symm.trans found
    cases ((spread entries).lookup source).or inherited <;> simp [moved, other, own]

theorem lookup_copyEntries_proto {inherited : Option α} {entries : List (String × α)} (plain : target ≠ "__proto__") :
    (copyEntries source target inherited entries).lookup "__proto__" = none := by
  have gone : (spread entries).lookup "__proto__" = none := by rw [lookup_spread, if_pos rfl]
  rw [lookup_copyEntries, gone]
  cases ((spread entries).lookup source).or inherited with
  | none => rfl
  | some value => simp [Ne.symm plain]

theorem lookup_copyEntries_source (source target : String) (inherited : Option α) (entries : List (String × α)) :
    (copyEntries source target inherited entries).lookup source = none := by
  rw [lookup_copyEntries]
  cases typed : ((spread entries).lookup source).or inherited with
  | none => exact (Option.or_eq_none_iff.mp typed).1
  | some value => simp

def mapValues (f : α → β) (props : List (String × α)) : List (String × β) := props.map fun entry => (entry.1, f entry.2)

theorem lookup_mapValues (f : α → β) (props : List (String × α)) (key : String) :
    (mapValues f props).lookup key = (props.lookup key).map f := by
  induction props with
  | nil => rfl
  | cons entry rest ih =>
    obtain ⟨name, value⟩ := entry
    simp only [mapValues, List.map_cons, lookup_entry] at ih ⊢
    split
    · rfl
    · exact ih

theorem lookup_spread_mapValues (f : α → β) (entries : List (String × α)) (key : String) :
    (spread (mapValues f entries)).lookup key = ((spread entries).lookup key).map f := by
  rw [lookup_spread, lookup_spread, lookup_mapValues]
  split <;> rfl

theorem lookup_copyEntries_mapValues (f : α → β) (source target : String) (inherited : Option α)
    (entries : List (String × α)) (key : String) :
    (copyEntries source target (inherited.map f) (mapValues f entries)).lookup key =
      ((copyEntries source target inherited entries).lookup key).map f := by
  rw [lookup_copyEntries, lookup_copyEntries, lookup_spread_mapValues, lookup_spread_mapValues, ← Option.map_or]
  cases ((spread entries).lookup source).or inherited with
  | none => rfl
  | some value =>
    simp only [Option.map_some]
    split
    · rfl
    · split <;> rfl

end Entries

theorem copyCell_eq (format : JsonFormat) (heap : Heap) (c : Cell) : copyCell format heap c =
    .object (copyEntries format.foreignKey format.typeKey (inherited heap c format.foreignKey) c.entries) := by
  cases format <;> rfl

def beginsWithObject : List Json → Bool
  | .prim .null :: _ | .obj _ :: _ => true
  | _ => false

/-- Where an array stands decides what becomes of it: as the root, and as an element of an array that
    begins with an object, it is spread into an object. -/
inductive Place
  | element
  | property

mutual

/-- What `copy` makes of a document. -/
def copyJson (format : JsonFormat) : Place → Json → Json
  | _, .prim p => .prim p
  | .element, .arr elems =>
    .obj (copyEntries format.foreignKey format.typeKey none (indexed (copyElems format .property elems)))
  | .property, .arr elems =>
    .arr (copyElems format (if beginsWithObject elems then .element else .property) elems)
  | _, .obj props =>
    .obj (copyEntries format.foreignKey format.typeKey (copyInherited format props) (copyProps format props))

def copyElems (format : JsonFormat) (place : Place) : List Json → List Json
  | [] => []
  | e :: rest => copyJson format place e :: copyElems format place rest

def copyProps (format : JsonFormat) : List (String × Json) → List (String × Json)
  | [] => []
  | (name, value) :: rest => (name, copyJson format .property value) :: copyProps format rest

def copyInherited (format : JsonFormat) : List (String × Json) → Option Json
  | [] => none
  | (name, value) :: rest => if name = "__proto__" then copyType format value else copyInherited format rest

def copyType (format : JsonFormat) : Json → Option Json
  | .obj props => copyFirst format format.foreignKey props
  | _ => none

def copyFirst (format : JsonFormat) (key : String) : List (String × Json) → Option Json
  | [] => none
  | (name, value) :: rest => if name = key then some (copyJson format .property value) else copyFirst format key rest

end

theorem copyElems_eq (format : JsonFormat) (place : Place) (elems : List Json) :
    copyElems format place elems = elems.map (copyJson format place) := by
  induction elems with
  | nil => rfl
  | cons e rest ih => rw [copyElems, ih, List.map_cons]

theorem copyProps_eq (format : JsonFormat) (props : List (String × Json)) :
    copyProps format props = mapValues (copyJson format .property) props := by
  induction props with
  | nil => rfl
  | cons entry rest ih => rw [copyProps, ih, mapValues, mapValues, List.map_cons]

theorem copyFirst_eq (format : JsonFormat) (key : String) (props : List (String × Json)) :
    copyFirst format key props = (props.lookup key).map (copyJson format .property) := by
  induction props with
  | nil => rfl
  | cons entry rest ih =>
    rw [copyFirst, lookup_entry, ih]
    by_cases here : entry.1 = key
    · simp [here]
    · simp [here, Ne.symm here]

theorem indexOf_foreignKey (format : JsonFormat) : indexOf? format.foreignKey = none := by cases format <;> decide

theorem copyType_eq (format : JsonFormat) (j : Json) :
    copyType format j = (j.child format.foreignKey).map (copyJson format .property) := by
  cases j with
  | prim p => simp [copyType, Json.child]
  | arr elems => simp [copyType, Json.child, indexOf_foreignKey]
  | obj props => rw [copyType, copyFirst_eq, Json.child]

def inheritedType (format : JsonFormat) (j : Json) : Option Json :=
  (j.child "__proto__").bind (·.child format.foreignKey)

theorem copyInherited_eq (format : JsonFormat) (props : List (String × Json)) :
    copyInherited format props = (inheritedType format (.obj props)).map (copyJson format .property) := by
  rw [inheritedType, Json.child]
  induction props with
  | nil => rfl
  | cons entry rest ih =>
    rw [copyInherited, lookup_entry, ih, copyType_eq]
    by_cases here : entry.1 = "__proto__"
    · simp [here]
    · simp [here, Ne.symm here]

theorem inheritedType_arr (format : JsonFormat) (elems : List Json) : inheritedType format (.arr elems) = none := by
  have word : indexOf? "__proto__" = none := by decide
  simp [inheritedType, Json.child, word]

theorem indexed_map {α β : Type} (f : α → β) (elems : List α) : indexed (elems.map f) = mapValues f (indexed elems) := by
  simp [indexed, mapValues, List.zipIdx_map]

/-- The values that `copy` spreads into a new object. -/
def Spread : Place → Json → Prop
  | _, .prim _ => False
  | place, .arr _ => place = .element
  | _, .obj _ => True

theorem copyJson_spread (format : JsonFormat) {place : Place} {j : Json} (spreads : Spread place j) :
    copyJson format place j =
      .obj (copyEntries format.foreignKey format.typeKey ((inheritedType format j).map (copyJson format .property))
        (mapValues (copyJson format .property) j.entries)) := by
  cases j with
  | prim p => exact spreads.elim
  | arr elems =>
    subst spreads
    rw [copyJson, copyElems_eq, indexed_map, Json.entries, inheritedType_arr, Option.map_none]
  | obj props =>
    cases place with
    | element => rw [copyJson, copyProps_eq, copyInherited_eq, Json.entries]
    | property => rw [copyJson, copyProps_eq, copyInherited_eq, Json.entries]

theorem child_copyJson_spread (format : JsonFormat) {place : Place} {j : Json} (spreads : Spread place j) (key : String) :
    (copyJson format place j).child key =
      ((copyEntries format.foreignKey format.typeKey (inheritedType format j) j.entries).lookup key).map
        (copyJson format .property) := by
  rw [copyJson_spread format spreads]
  exact lookup_copyEntries_mapValues _ _ _ _ _ _

def elementPlace (elems : List Json) : Place := if beginsWithObject elems then .element else .property

theorem copyJson_array (format : JsonFormat) (elems : List Json) :
    copyJson format .property (.arr elems) = .arr (elems.map (copyJson format (elementPlace elems))) := by
  rw [copyJson, copyElems_eq, elementPlace]

theorem child_map {α β : Type} (f : α → β) (elems : List α) (name : String) :
    (indexOf? name).bind ((elems.map f)[·]?) = ((indexOf? name).bind (elems[·]?)).map f := by
  cases indexOf? name with
  | none => rfl
  | some i => simp

end TypeUtil

end ModelServer
