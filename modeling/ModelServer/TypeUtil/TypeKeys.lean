import ModelServer.TypeUtil.Renaming

namespace ModelServer.TypeUtil

open Js

/-- A body of the format for a document: no object has the foreign key, and the type of every object of
    the document stands under the key of the format. -/
structure TypedBy (format : JsonFormat) (j result : Json) : Prop where
  noForeign : ¬ result.HasKey format.foreignKey
  kept : ∀ path key shape, key = "eClass" ∨ key = "$type" → j.shapeAt path = some .obj →
    j.shapeAt (path ++ [key]) = some shape →
    result.shapeAt (path.map (renamedKey format)) = some .obj ∧
    ∃ shape', result.shapeAt (path.map (renamedKey format) ++ [format.typeKey]) = some shape' ∧
      ∀ p, shape = .prim p → shape' = .prim p

theorem TypedBy.of_same {format : JsonFormat} {j result result' : Json} (t : TypedBy format j result)
    (same : result.Same result') : TypedBy format j result' := by
  refine ⟨fun foreign => t.noForeign (same.symm.hasKey foreign), fun path key shape typeKey object typed => ?_⟩
  rw [← same, ← same]
  exact t.kept path key shape typeKey object typed

theorem isKey_foreignKey (format : JsonFormat) : IsKey format.foreignKey := by
  cases format
  · exact isKey_type
  · exact isKey_eClass

theorem foreign_or_typeKey (format : JsonFormat) {key : String} (typeKey : key = "eClass" ∨ key = "$type") :
    key = format.foreignKey ∨ key = format.typeKey := by
  cases format
  · exact typeKey.symm
  · exact typeKey

theorem renamedKey_index {format : JsonFormat} {name : String} {i : Nat} (index : indexOf? name = some i) :
    renamedKey format name = name := by
  apply if_neg
  intro same
  subst same
  cases index.symm.trans (isKey_foreignKey format).1

theorem child_of_copyJson {format : JsonFormat} {place : Place} {j c : Json} {key : String}
    (found : (copyJson format place j).child key = some c) :
    ∃ place' name path c', j.at? (name :: path) = some c' ∧ c = copyJson format place' c' := by
  have spreads : Spread place j → ∃ place' name path c', j.at? (name :: path) = some c' ∧ c = copyJson format place' c' := by
    intro spread
    rw [child_copyJson_spread format spread] at found
    rcases Option.map_eq_some_iff.mp found with ⟨c', source, rfl⟩
    rcases below_of_copyEntries source with ⟨name, path, below⟩
    exact ⟨.property, name, path, c', below, rfl⟩
  cases j with
  | prim p =>
    rw [copyJson] at found
    cases found
  | obj props => exact spreads trivial
  | arr elems =>
    cases place with
    | element => exact spreads rfl
    | property =>
      simp only [copyJson_array, Json.child, child_map] at found
      rcases Option.map_eq_some_iff.mp found with ⟨c', source, rfl⟩
      have element : (Json.arr elems).child key = some c' := source
      exact ⟨_, key, [], c', by rw [Json.at?, element]; rfl, rfl⟩

theorem copyJson_noForeign (format : JsonFormat) (j : Json) :
    ∀ place, ¬ (copyJson format place j).HasKey format.foreignKey := by
  induction j using Json.below_induct with
  | step j ih =>
  intro place foreign
  rcases (Json.hasKey_iff _ _).mp foreign with ⟨object, present⟩ | ⟨key, c, found, below⟩
  · have spreads : Spread place j := by
      cases j with
      | prim p =>
        rw [copyJson] at object
        cases object
      | obj props => trivial
      | arr elems =>
        cases place with
        | element => rfl
        | property =>
          rw [copyJson_array] at object
          cases object
    rw [child_copyJson_spread format spreads, lookup_copyEntries_source] at present
    cases present
  · rcases child_of_copyJson found with ⟨place', name, path, c', source, rfl⟩
    exact ih name path c' source place' below

theorem copyJson_noProto (format : JsonFormat) (j : Json) :
    ∀ place path, "__proto__" ∈ path → (copyJson format place j).at? path = none := by
  induction j using Json.below_induct with
  | step j ih =>
  intro place path member
  cases path with
  | nil => cases member
  | cons key rest =>
    rw [Json.at?]
    cases found : (copyJson format place j).child key with
    | none => rfl
    | some c =>
      rcases child_of_copyJson found with ⟨place', name, path, c', source, rfl⟩
      rcases List.mem_cons.mp member with rfl | later
      · have word : indexOf? "__proto__" = none := by decide
        cases j with
        | prim p =>
          rw [copyJson] at found
          cases found
        | obj props =>
          rw [child_copyJson_spread format (show Spread place (.obj props) from trivial),
            lookup_copyEntries_proto (Ne.symm format.proto_ne.2)] at found
          cases found
        | arr elems =>
          cases place with
          | element =>
            rw [child_copyJson_spread format (show Spread .element (.arr elems) from rfl),
              lookup_copyEntries_proto (Ne.symm format.proto_ne.2)] at found
            cases found
          | property =>
            rw [copyJson_array, Json.child, word] at found
            cases found
      · exact ih name path c' source place' rest later

theorem child_copyJson {format : JsonFormat} {j c : Json} {name : String} (untyped : ¬ j.HasKey format.typeKey)
    (plain : name ≠ "__proto__") (found : j.child name = some c) (place : Place) :
    ∃ place', (copyJson format place j).child (renamedKey format name) = some (copyJson format place' c) := by
  have spreads : Spread place j → j.entries.lookup format.typeKey = none →
      (copyJson format place j).child (renamedKey format name) = some (copyJson format .property c) := by
    intro spread free
    rw [child_copyJson_spread format spread, renamedKey]
    rw [copyEntries_covers free plain ((Json.lookup_entries j name).trans found)]
    rfl
  cases j with
  | prim p => cases found
  | obj props => exact ⟨.property, spreads trivial (Json.lookup_of_not_hasKey untyped)⟩
  | arr elems =>
    cases place with
    | element =>
      refine ⟨.property, spreads rfl ?_⟩
      rw [Json.lookup_entries, Json.child, (isKey_typeKey format).1, Option.bind_none]
    | property =>
      have index : ∃ i, indexOf? name = some i := by
        cases at_name : indexOf? name with
        | none => simp [Json.child, at_name] at found
        | some i => exact ⟨i, rfl⟩
      obtain ⟨i, index⟩ := index
      refine ⟨elementPlace elems, ?_⟩
      rw [copyJson_array, renamedKey_index index, Json.child, child_map]
      rw [Json.child] at found
      rw [found]
      rfl

theorem at_copyJson {format : JsonFormat} {path : List String} (plain : "__proto__" ∉ path) : ∀ {j c : Json},
    ¬ j.HasKey format.typeKey → j.at? path = some c → ∀ place, ∃ place',
      (copyJson format place j).at? (path.map (renamedKey format)) = some (copyJson format place' c) := by
  induction path with
  | nil =>
    intro j _ _ none place
    cases none
    exact ⟨place, rfl⟩
  | cons name path ih =>
    intro j c untyped found place
    rw [List.mem_cons, not_or] at plain
    simp only [Json.at?] at found
    cases first : j.child name with
    | none => simp [first] at found
    | some d =>
      obtain ⟨place', copied⟩ := child_copyJson untyped (Ne.symm plain.1) first place
      obtain ⟨place'', rest⟩ := ih plain.2 (Json.not_hasKey_child untyped first) (by simpa [first] using found) place'
      exact ⟨place'', by simp [Json.at?, copied, rest]⟩

theorem map_renamedKey {format : JsonFormat} {path : List String} : ∀ {j c : Json}, ¬ j.HasKey format.foreignKey →
    j.at? path = some c → path.map (renamedKey format) = path := by
  induction path with
  | nil => exact fun _ _ => rfl
  | cons name path ih =>
    intro j c native found
    simp only [Json.at?] at found
    cases first : j.child name with
    | none => simp [first] at found
    | some d =>
      have kept : renamedKey format name = name := by
        apply if_neg
        intro same
        subst same
        cases j with
        | prim p => cases first
        | arr elems => simp [Json.child, (isKey_foreignKey format).1] at first
        | obj props => cases first.symm.trans (Json.lookup_of_not_hasKey native)
      rw [List.map_cons, kept, ih (Json.not_hasKey_child native first) (by simpa [first] using found)]

def HidesType (j : Json) : Prop :=
  ∃ path key, "__proto__" ∈ path ∧ (key = "eClass" ∨ key = "$type") ∧ j.shapeAt path = some .obj ∧
    (j.shapeAt (path ++ [key])).isSome

theorem not_hidesType {j : Json} (plain : ¬ j.HasKey "__proto__") : ¬ HidesType j := by
  intro hides
  rcases hides with ⟨path, key, member, -, object, -⟩
  rcases Option.map_eq_some_iff.mp object with ⟨c, found, -⟩
  exact plain (Json.hasKey_of_mem_path (by decide) member found)

/-- A copy keeps the types that do not stand below a property `__proto__`, and no others. -/
theorem typedBy_copy_iff {format : JsonFormat} {j : Json} (untyped : ¬ j.HasKey format.typeKey) (place : Place) :
    TypedBy format j (copyJson format place j) ↔ ¬ HidesType j := by
  constructor
  · intro typed hides
    rcases hides with ⟨path, key, member, typeKey, object, present⟩
    rcases Option.isSome_iff_exists.mp present with ⟨shape, found⟩
    have kept := (typed.kept path key shape typeKey object found).1
    have proto : "__proto__" ∈ path.map (renamedKey format) :=
      List.mem_map.mpr ⟨_, member, if_neg format.proto_ne.1⟩
    rw [Json.shapeAt, copyJson_noProto format j place _ proto] at kept
    cases kept
  · intro shown
    refine ⟨copyJson_noForeign format j place, fun path key shape typeKey object typed => ?_⟩
    have plain : "__proto__" ∉ path := fun member => shown ⟨path, key, member, typeKey, object, by simp [typed]⟩
    have plain' : "__proto__" ∉ path ++ [key] := by
      rw [List.mem_append, List.mem_singleton, not_or]
      refine ⟨plain, ?_⟩
      rcases typeKey with rfl | rfl <;> decide
    simp only [Json.shapeAt, Option.map_eq_some_iff] at object typed ⊢
    obtain ⟨c, at_path, object⟩ := object
    obtain ⟨d, at_key, rfl⟩ := typed
    obtain ⟨place', copied⟩ := at_copyJson plain untyped at_path place
    obtain ⟨place'', copied'⟩ := at_copyJson plain' untyped at_key place
    have renamed : renamedKey format key = format.typeKey := by
      rcases foreign_or_typeKey format typeKey with rfl | rfl
      · exact if_pos rfl
      · exact if_neg (Ne.symm format.foreignKey_ne)
    refine ⟨⟨_, copied, ?_⟩, _, ⟨_, by simpa [renamed] using copied', rfl⟩, ?_⟩
    · cases c with
      | prim p => cases object
      | arr elems => cases object
      | obj props =>
        rw [copyJson_spread format (show Spread place' (.obj props) from trivial)]
        rfl
    · intro p shape
      cases d with
      | prim q =>
        rw [copyJson]
        exact shape
      | arr elems => cases shape
      | obj props => cases shape

theorem typedBy_self {format : JsonFormat} {j : Json} (native : ¬ j.HasKey format.foreignKey) : TypedBy format j j := by
  refine ⟨native, fun path key shape typeKey object typed => ?_⟩
  have at_path : ∃ c, j.at? path = some c := by
    simp only [Json.shapeAt, Option.map_eq_some_iff] at object
    obtain ⟨c, at_path, -⟩ := object
    exact ⟨c, at_path⟩
  obtain ⟨c, at_path⟩ := at_path
  rw [map_renamedKey native at_path]
  rcases foreign_or_typeKey format typeKey with rfl | rfl
  · exact absurd ⟨path, object, by simp [typed]⟩ native
  · exact ⟨object, shape, typed, fun p same => same⟩

/-- The encoded request body holds a body of the format; a text of a primitive value gives no data. -/
def BodyTyped (text : JsonText) (format : JsonFormat) (h : Heap) (object : Payload) (j : Json) : Prop :=
  ∃ need, ∀ fuel, need < fuel → ∃ encoder h' body, encodeRequestBody text fuel format.name = .ok encoder ∧
    encoder h object = pure (h', body) ∧
    ((∃ result, Means text h' body.data result ∧ TypedBy format j result) ∨
      (body.data = .value .undefined ∧ ∀ path, j.shapeAt path ≠ some .obj))

theorem no_objects_prim (p : Prim) (path : List String) : (Json.prim p).shapeAt path ≠ some .obj := by
  cases path <;> simp [Json.shape, Json.shapeAt_cons, Json.child]

theorem bodyTyped_iff {text : JsonText} {format : JsonFormat} {h : Heap} {object : Payload} {j : Json}
    (means : Means text h object j) :
    BodyTyped text format h object j ↔
      ¬ (j.HasKey format.typeKey ∧ j.HasKey format.foreignKey) ∧ (j.HasKey format.typeKey ∨ ¬ HidesType j) := by
  rcases encodeRequestBody_spec text format means with ⟨need, spec⟩
  constructor
  · intro given
    rcases given with ⟨need', bodies⟩
    obtain ⟨encoder, h', data, found, called, returned⟩ := spec (need + need' + 1) (by omega)
    obtain ⟨encoder', h'', body, found', called', outcome⟩ := bodies (need + need' + 1) (by omega)
    cases found.symm.trans found'
    cases called.symm.trans called'
    cases result : converted format j with
    | none =>
      refine ⟨fun both => ?_, .inr fun hides => ?_⟩
      · simp [converted, both.1] at result
      · rw [result] at returned
        rcases outcome with ⟨j', means', -⟩ | ⟨-, plain⟩
        · rw [show data = .value .undefined from returned] at means'
          cases j' <;> cases Heap.Denotes.shape means'
        · rcases hides with ⟨path, -, -, -, object, -⟩
          exact plain path object
    | some j' =>
      rw [result] at returned
      have typedBy : TypedBy format j j' := by
        rcases outcome with ⟨j'', means', typedBy⟩ | ⟨rfl, -⟩
        · exact typedBy.of_same (means'.same returned.1)
        · have undefined := Heap.Denotes.shape returned.1
          cases j' <;> cases undefined
      by_cases typed : j.HasKey format.typeKey
      · simp only [converted, typed, if_true, Option.some.injEq] at result
        subst result
        exact ⟨fun both => typedBy.noForeign both.2, .inl typed⟩
      · refine ⟨fun both => typed both.1, .inr ?_⟩
        have copies := typedBy_copy_iff typed .element
        cases j with
        | prim p =>
          simp only [converted, typed, if_false] at result
          cases result
        | arr elems =>
          simp only [converted, typed, if_false] at result
          cases result
          exact copies.mp typedBy
        | obj props =>
          simp only [converted, typed, if_false] at result
          cases result
          exact copies.mp typedBy
  · intro given
    rcases given with ⟨notBoth, shown⟩
    refine ⟨need, fun fuel enough => ?_⟩
    obtain ⟨encoder, h', data, found, called, returned⟩ := spec fuel enough
    refine ⟨encoder, h', ⟨data⟩, found, called, ?_⟩
    by_cases typed : j.HasKey format.typeKey
    · simp only [converted, typed, if_true, Returned] at returned
      exact .inl ⟨j, returned.1, typedBy_self fun foreign => notBoth ⟨typed, foreign⟩⟩
    · have copies := typedBy_copy_iff typed .element
      cases j with
      | prim p =>
        simp only [converted, typed, if_false, Returned] at returned
        exact .inr ⟨returned, no_objects_prim p⟩
      | arr elems =>
        simp only [converted, typed, if_false, Returned] at returned
        exact .inl ⟨_, returned.1, copies.mpr (shown.resolve_left typed)⟩
      | obj props =>
        simp only [converted, typed, if_false, Returned] at returned
        exact .inl ⟨_, returned.1, copies.mpr (shown.resolve_left typed)⟩

/-- Request bodies have the type keys of their format, and all types, exactly for payloads that do not hold both keys
    and have no type below a property `__proto__`. -/
theorem encodeRequestBody_typed_iff {text : JsonText} {h : Heap} {object : Payload} {j : Json}
    (means : Means text h object j) :
    (∀ format, BodyTyped text format h object j) ↔ ¬ (j.HasKey "eClass" ∧ j.HasKey "$type") ∧ ¬ HidesType j := by
  constructor
  · intro bodies
    rcases (bodyTyped_iff means).mp (bodies .json) with ⟨notBoth, shown⟩
    rcases (bodyTyped_iff means).mp (bodies .jsonV2) with ⟨-, shown'⟩
    refine ⟨notBoth, fun hides => notBoth ⟨?_, ?_⟩⟩
    · exact shown.resolve_right fun plain => plain hides
    · exact shown'.resolve_right fun plain => plain hides
  · intro given format
    apply (bodyTyped_iff means).mpr
    refine ⟨?_, .inr given.2⟩
    cases format
    · exact given.1
    · exact fun both => given.1 both.symm

def typedPair : Json := .obj [("first", .obj [("$type", .prim (.string "Node"))]), ("second", .arr [.prim .null, .obj []])]

theorem encodeRequestBody_typed_typedPair :
    BodyTyped plainText .json ⟨[]⟩ (.text (plainText.stringify typedPair)) typedPair ∧
    BodyTyped plainText .jsonV2 ⟨[]⟩ (.text (plainText.stringify typedPair)) typedPair := by
  have means : Means plainText ⟨[]⟩ (.text (plainText.stringify typedPair)) typedPair :=
    plainText.parse_stringify typedPair
  have native : ¬ typedPair.HasKey "eClass" := Json.not_hasKey (by decide)
  have plain : ¬ typedPair.HasKey "__proto__" := Json.not_hasKey (by decide)
  have typed := (encodeRequestBody_typed_iff means).mpr ⟨fun both => native both.1, not_hidesType plain⟩
  exact ⟨typed .json, typed .jsonV2⟩

def mixedCommand : Json :=
  .obj [("eClass", .prim (.string "AddCommand")),
    ("objectsToAdd", .arr [.obj [("$type", .prim (.string "Task"))]])]

/-- The body in the second format still has the key of the first, and the other way round. -/
theorem encodeRequestBody_mixedCommand :
    Means plainText ⟨[]⟩ (.text (plainText.stringify mixedCommand)) mixedCommand ∧
    EncodesAs plainText .jsonV2 ⟨[]⟩ (.text (plainText.stringify mixedCommand)) mixedCommand ∧
    EncodesAs plainText .json ⟨[]⟩ (.text (plainText.stringify mixedCommand)) mixedCommand ∧
    (∀ format, ¬ BodyTyped plainText format ⟨[]⟩ (.text (plainText.stringify mixedCommand)) mixedCommand) := by
  have means : Means plainText ⟨[]⟩ (.text (plainText.stringify mixedCommand)) mixedCommand :=
    plainText.parse_stringify mixedCommand
  have first : mixedCommand.HasKey "eClass" := ⟨[], rfl, rfl⟩
  have second : mixedCommand.HasKey "$type" := ⟨["objectsToAdd", "0"], rfl, rfl⟩
  have both : ∀ format : JsonFormat, mixedCommand.HasKey format.typeKey ∧ mixedCommand.HasKey format.foreignKey := by
    intro given
    rcases given with _ | _
    · exact ⟨first, second⟩
    · exact ⟨second, first⟩
  refine ⟨means, (encodesAs_iff means _).mpr ⟨_, if_pos (both .jsonV2).1, .refl _⟩,
    (encodesAs_iff means _).mpr ⟨_, if_pos (both .json).1, .refl _⟩, fun format typed => ?_⟩
  exact ((bodyTyped_iff means).mp typed).1 (both format)

end ModelServer.TypeUtil
