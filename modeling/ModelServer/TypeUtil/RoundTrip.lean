import ModelServer.TypeUtil.Renaming
import ModelServer.TypeUtil.TypeKeys

namespace ModelServer

open Js Relations

def JsonFormat.other : JsonFormat → JsonFormat
  | .json => .jsonV2
  | .jsonV2 => .json

theorem JsonFormat.typeKey_other (format : JsonFormat) : format.other.typeKey = format.foreignKey := by
  cases format <;> rfl

theorem JsonFormat.foreignKey_other (format : JsonFormat) : format.other.foreignKey = format.typeKey := by
  cases format <;> rfl

namespace TypeUtil

mutual

def nestsNoArray : Json → Bool
  | .prim _ => true
  | .arr elems => nestsNoArrayElems elems
  | .obj props => nestsNoArrayProps props

def nestsNoArrayElems : List Json → Bool
  | [] => true
  | .arr _ :: _ => false
  | e :: rest => nestsNoArray e && nestsNoArrayElems rest

def nestsNoArrayProps : List (String × Json) → Bool
  | [] => true
  | (_, value) :: rest => nestsNoArray value && nestsNoArrayProps rest

end

theorem nestsNoArrayElems_mem {elems : List Json} (flat : nestsNoArrayElems elems = true) :
    ∀ e ∈ elems, (∀ es, e ≠ .arr es) ∧ nestsNoArray e = true := by
  induction elems with
  | nil => exact nofun
  | cons first rest ih =>
    have plain : ∀ es, first ≠ .arr es := by
      intro es same
      subst same
      rw [nestsNoArrayElems] at flat
      cases flat
    rw [nestsNoArrayElems.eq_3 _ _ plain, Bool.and_eq_true] at flat
    exact List.forall_mem_cons.mpr ⟨⟨plain, flat.1⟩, ih flat.2⟩

theorem nestsNoArrayProps_mem {props : List (String × Json)} (flat : nestsNoArrayProps props = true) :
    ∀ entry ∈ props, nestsNoArray entry.2 = true := by
  induction props with
  | nil => exact nofun
  | cons entry rest ih =>
    rw [nestsNoArrayProps, Bool.and_eq_true] at flat
    exact List.forall_mem_cons.mpr ⟨flat.1, ih flat.2⟩

theorem spreadsNoArray_of_flat {j : Json} (flat : nestsNoArray j = true) : SpreadsNoArray j := by
  induction j using Json.induct with
  | prim p => exact .prim p
  | arr elems ih =>
    rw [nestsNoArray] at flat
    have each := nestsNoArrayElems_mem flat
    exact .arr (fun _ e member => (each e member).1) fun e member => ih e member (each e member).2
  | obj props ih =>
    rw [nestsNoArray] at flat
    exact .obj fun entry member => ih entry member (nestsNoArrayProps_mem flat entry member)

theorem onlyRenamed_of_flat {j : Json} (flat : nestsNoArray j = true) (plain : j.mentions "__proto__" = false) :
    OnlyRenamed j := ⟨spreadsNoArray_of_flat flat, Json.not_hasKey plain⟩

section Retyped

variable {format : JsonFormat}

theorem moved_back {α β : Type} {f : α → β} {props : List (String × α)} {props' : List (String × β)}
    (free : props.lookup format.typeKey = none) (there : ∀ key, props'.lookup key = (moved format props key).map f)
    (key : String) : moved format.other props' key = (props.lookup key).map f := by
  have distinct := format.foreignKey_ne
  rw [moved, JsonFormat.foreignKey_other, JsonFormat.typeKey_other, there, there]
  by_cases type : key = format.typeKey
  · rw [if_pos type, type, free, Option.map_none]
  · rw [if_neg type]
    by_cases foreign : key = format.foreignKey
    · rw [if_pos foreign, moved, if_neg (Ne.symm distinct), if_pos rfl, foreign]
    · rw [if_neg foreign, moved, if_neg foreign, if_neg type]

theorem moved_native {α : Type} {props : List (String × α)} (free : props.lookup format.typeKey = none)
    (native : props.lookup format.foreignKey = none) (key : String) : moved format props key = props.lookup key := by
  rw [moved, native]
  split
  · rename_i foreign
    rw [foreign, native]
  · split
    · rename_i type
      rw [type, free]
    · rfl

theorem child_retyped_arr (format : JsonFormat) (elems : List Json) (key : String) :
    (retyped format (.arr elems)).child key = ((Json.arr elems).child key).map (retyped format) := by
  rw [retyped, retypedElems_eq]
  exact child_map _ _ _

theorem shape_retyped (format : JsonFormat) (j : Json) : (retyped format j).shape = j.shape := by
  cases j with
  | prim p => rfl
  | arr elems => simp [retyped, retypedElems_eq, Json.shape]
  | obj props => rfl

theorem retyped_same {j : Json} (untyped : ¬ j.HasKey format.typeKey) (native : ¬ j.HasKey format.foreignKey) :
    (retyped format j).Same j := by
  induction j using Json.child_induct with
  | step j ih =>
  refine Json.same_of_children (shape_retyped format j) fun key => ?_
  have each : ∀ c, j.child key = some c → (retyped format c).Same c :=
    fun c found => ih key c found (Json.not_hasKey_child untyped found) (Json.not_hasKey_child native found)
  cases j with
  | prim p => exact .none
  | arr elems =>
    rw [child_retyped_arr]
    exact rel_map_self each
  | obj props =>
    have free : props.lookup format.typeKey = none := Json.lookup_of_not_hasKey untyped
    rw [lookup_retyped free, moved_native free (Json.lookup_of_not_hasKey native)]
    exact rel_map_self each

theorem retyped_back {j : Json} (untyped : ¬ j.HasKey format.typeKey) :
    (retyped format.other (retyped format j)).Same j := by
  induction j using Json.child_induct with
  | step j ih =>
  refine Json.same_of_children (by rw [shape_retyped, shape_retyped]) fun key => ?_
  have each : ∀ c, j.child key = some c → (retyped format.other (retyped format c)).Same c :=
    fun c found => ih key c found (Json.not_hasKey_child untyped found)
  cases j with
  | prim p => exact .none
  | arr elems =>
    have inner : retyped format (.arr elems) = .arr (elems.map (retyped format)) := by
      rw [retyped, retypedElems_eq]
    rw [inner, child_retyped_arr, ← inner, child_retyped_arr, Option.map_map]
    exact rel_map_self each
  | obj props =>
    have free : props.lookup format.typeKey = none := Json.lookup_of_not_hasKey untyped
    have there := lookup_retyped free
    rw [retyped] at there ⊢
    have free' : (retypedProps format props).lookup format.other.typeKey = none := by
      have gone := there format.foreignKey
      rwa [moved, if_pos rfl, Option.map_none, ← JsonFormat.typeKey_other] at gone
    rw [lookup_retyped free', moved_back free there, Option.map_map]
    exact rel_map_self each

theorem beginsWithObject_retyped (format : JsonFormat) (elems : List Json) :
    beginsWithObject (elems.map (retyped format)) = beginsWithObject elems := by
  cases elems with
  | nil => rfl
  | cons e rest =>
    cases e with
    | prim p => cases p <;> rfl
    | arr es => rfl
    | obj props => rfl

theorem SpreadsNoArray.retyped {j : Json} (spreads : SpreadsNoArray j) (untyped : ¬ j.HasKey format.typeKey) :
    SpreadsNoArray (retyped format j) := by
  induction j using Json.child_induct with
  | step j ih =>
  have below : ∀ name c, j.child name = some c → SpreadsNoArray (TypeUtil.retyped format c) :=
    fun name c found =>
      ih name c found (((spreadsNoArray_iff j).mp spreads).2 name c found) (Json.not_hasKey_child untyped found)
  refine (spreadsNoArray_iff _).mpr ⟨fun elems array begins e member es nested => ?_, fun name c found => ?_⟩
  · subst nested
    cases j with
    | prim p => cases array
    | obj props => cases array
    | arr elems' =>
      rw [TypeUtil.retyped, retypedElems_eq] at array
      have elements := Json.arr.inj array
      subst elements
      rcases List.mem_map.mp member with ⟨e', member', same⟩
      have inner : ∃ es', e' = .arr es' := by
        cases e' with
        | arr es' => exact ⟨es', rfl⟩
        | prim p => cases same
        | obj props => cases same
      rcases inner with ⟨es', rfl⟩
      refine ((spreadsNoArray_iff _).mp spreads).1 elems' rfl ?_ _ member' es' rfl
      rw [← begins, beginsWithObject_retyped]
  · cases j with
    | prim p => cases found
    | arr elems =>
      rw [child_retyped_arr, Option.map_eq_some_iff] at found
      rcases found with ⟨c', found, rfl⟩
      exact below name c' found
    | obj props =>
      rw [lookup_retyped (Json.lookup_of_not_hasKey untyped), Option.map_eq_some_iff] at found
      rcases found with ⟨c', found, rfl⟩
      rcases of_moved found with ⟨name', found', -⟩
      exact below name' c' found'

theorem not_hasKey_proto (format : JsonFormat) (j : Json) (place : Place) :
    ¬ (copyJson format place j).HasKey "__proto__" := by
  intro given
  rcases given with ⟨path, -, present⟩
  rw [Json.shapeAt, copyJson_noProto format j place _ (List.mem_append_right path (List.mem_singleton_self _))] at present
  cases present

theorem retyped_noForeign {j : Json} (untyped : ¬ j.HasKey format.typeKey) (plain : OnlyRenamed j) :
    ¬ (retyped format j).HasKey format.foreignKey := by
  intro foreign
  have copied := (copyJson_same_iff format j untyped .property).mpr ⟨nofun, plain⟩
  exact copyJson_noForeign format j .property (copied.symm.hasKey foreign)

theorem OnlyRenamed.retyped {j : Json} (plain : OnlyRenamed j) (untyped : ¬ j.HasKey format.typeKey) :
    OnlyRenamed (retyped format j) := by
  refine ⟨plain.1.retyped untyped, fun proto => ?_⟩
  have copied := (copyJson_same_iff format j untyped .property).mpr ⟨nofun, plain⟩
  exact not_hasKey_proto format j .property (copied.symm.hasKey proto)

theorem beginsWithObject_copy (format : JsonFormat) (elems : List Json) :
    beginsWithObject (elems.map (copyJson format .property)) = beginsWithObject elems := by
  cases elems with
  | nil => rfl
  | cons e rest =>
    cases e with
    | prim p => rw [List.map_cons, copyJson]; cases p <;> rfl
    | arr es => rw [List.map_cons, copyJson]; rfl
    | obj props => rw [List.map_cons, copyJson]; rfl

theorem spreadsNoArray_copyJson (format : JsonFormat) (j : Json) :
    ∀ place, SpreadsNoArray (copyJson format place j) := by
  induction j using Json.below_induct with
  | step j ih =>
  intro place
  refine (spreadsNoArray_iff _).mpr ⟨fun elems array begins e member es nested => ?_, fun name c found => ?_⟩
  · subst nested
    cases j with
    | prim p =>
      rw [copyJson] at array
      cases array
    | obj props =>
      rw [copyJson_spread format (show Spread place (.obj props) from trivial)] at array
      cases array
    | arr elems' =>
      cases place with
      | element =>
        rw [copyJson_spread format (show Spread .element (.arr elems') from rfl)] at array
        cases array
      | property =>
        rw [copyJson_array] at array
        cases array
        rcases List.mem_map.mp member with ⟨e', -, same⟩
        cases first : beginsWithObject elems' with
        | true =>
          -- the element was spread
          rw [elementPlace, if_pos first] at same
          cases e' with
          | prim p =>
            rw [copyJson] at same
            cases same
          | arr es' =>
            rw [copyJson] at same
            cases same
          | obj props =>
            rw [copyJson] at same
            cases same
        | false =>
          rw [elementPlace, first, if_neg Bool.false_ne_true, beginsWithObject_copy, first] at begins
          cases begins
  · rcases child_of_copyJson found with ⟨place', name', path, c', below, rfl⟩
    exact ih name' path c' below place'

theorem onlyRenamed_copyJson (format : JsonFormat) (j : Json) (place : Place) : OnlyRenamed (copyJson format place j) :=
  ⟨spreadsNoArray_copyJson format j place, not_hasKey_proto format j place⟩

end Retyped

section RoundTrip

variable {text : JsonText} {h : Heap} {object : Payload} {j : Json}

def Reencodes (text : JsonText) (first second : JsonFormat) (h : Heap) (object : Payload) (result : Json) : Prop :=
  ∃ need, ∀ fuel, need < fuel → ∃ encoder h' out, encode text fuel first.name = .ok encoder ∧
    encoder h object = pure (h', out) ∧ EncodesAs text second h' out result

theorem EncodesAs.of_same {format : JsonFormat} {result result' : Json}
    (encodes : EncodesAs text format h object result) (same : result.Same result') :
    EncodesAs text format h object result' := by
  rcases encodes with ⟨need, spec⟩
  refine ⟨need, fun fuel enough => ?_⟩
  rcases spec fuel enough with ⟨encoder, h', out, found, called, means, form⟩
  exact ⟨encoder, h', out, found, called, means.of_same same, form⟩

theorem EncodesAs.andThen {first second : JsonFormat} {between result : Json}
    (encodes : EncodesAs text first h object between)
    (again : ∀ {h' out}, Means text h' out between → EncodesAs text second h' out result) :
    Reencodes text first second h object result := by
  rcases encodes with ⟨need, spec⟩
  refine ⟨need, fun fuel enough => ?_⟩
  rcases spec fuel enough with ⟨encoder, h', out, found, called, means, -⟩
  exact ⟨encoder, h', out, found, called, again means⟩

theorem encodesAs_typed {format : JsonFormat} (means : Means text h object j) (typed : j.HasKey format.typeKey) :
    EncodesAs text format h object j :=
  (encodesAs_iff means j).mpr ⟨j, if_pos typed, .refl j⟩

theorem encodesAs_untyped {format : JsonFormat} {props : List (String × Json)} (means : Means text h object (.obj props))
    (untyped : ¬ (Json.obj props).HasKey format.typeKey) :
    EncodesAs text format h object (copyJson format .element (.obj props)) :=
  (encodesAs_iff means _).mpr ⟨_, if_neg untyped, .refl _⟩

/-- An encoding that is not the document itself has lost every property `__proto__`. -/
theorem EncodesAs.noProto {format : JsonFormat} {result : Json} (means : Means text h object j)
    (untyped : ¬ j.HasKey format.typeKey) (encodes : EncodesAs text format h object result) :
    ¬ result.HasKey "__proto__" := by
  intro proto
  rcases (encodesAs_iff means result).mp encodes with ⟨j', converts, same⟩
  have copied : j' = copyJson format .element j := by
    cases j with
    | prim p =>
      simp only [converted, untyped, if_false] at converts
      cases converts
    | arr elems =>
      simp only [converted, untyped, if_false, Option.some.injEq] at converts
      exact converts.symm
    | obj props =>
      simp only [converted, untyped, if_false, Option.some.injEq] at converts
      exact converts.symm
  subst copied
  exact not_hasKey_proto format j .element (same.symm.hasKey proto)

/-- The other format undoes the encoding exactly where no property `__proto__` is lost. -/
theorem reencodes_other_iff {format : JsonFormat} {props : List (String × Json)} (means : Means text h object (.obj props))
    (untyped : ¬ (Json.obj props).HasKey format.typeKey) (spreads : SpreadsNoArray (.obj props)) :
    Reencodes text format format.other h object (.obj props) ↔ ¬ (Json.obj props).HasKey "__proto__" := by
  constructor
  · intro given
    rcases given with ⟨need, spec⟩
    rcases encode_spec text format means with ⟨need', returns⟩
    rcases spec (need + need' + 1) (by omega) with ⟨encoder, h', out, found, called, again⟩
    rcases returns (need + need' + 1) (by omega) with ⟨encoder', h'', out', found', called', returned⟩
    cases found.symm.trans found'
    cases called.symm.trans called'
    simp only [converted, untyped, if_false, Returned] at returned
    refine EncodesAs.noProto returned.1 ?_ again
    rw [JsonFormat.typeKey_other]
    exact copyJson_noForeign format _ .element
  · intro kept
    have plain : OnlyRenamed (.obj props) := ⟨spreads, kept⟩
    refine EncodesAs.andThen ((encodes_renamed_iff means untyped).mpr ⟨⟨_, rfl⟩, plain⟩) fun means' => ?_
    have native : ¬ (retyped format (.obj props)).HasKey format.other.typeKey := by
      rw [JsonFormat.typeKey_other]
      exact retyped_noForeign untyped plain
    have back := (encodes_renamed_iff means' native).mpr ⟨⟨_, rfl⟩, plain.retyped untyped⟩
    exact back.of_same (retyped_back untyped)

theorem reencodes_same (format : JsonFormat) {props : List (String × Json)} (means : Means text h object (.obj props)) :
    ∃ result, EncodesAs text format h object result ∧ Reencodes text format format h object result := by
  by_cases typed : (Json.obj props).HasKey format.typeKey
  · have encodes := encodesAs_typed means typed
    exact ⟨_, encodes, encodes.andThen fun means' => encodesAs_typed means' typed⟩
  · have encodes := encodesAs_untyped means typed
    refine ⟨_, encodes, encodes.andThen fun means' => ?_⟩
    by_cases typed' : (copyJson format .element (.obj props)).HasKey format.typeKey
    · exact encodesAs_typed means' typed'
    · have object : ∃ props', copyJson format .element (.obj props) = .obj props' :=
        ⟨_, copyJson_spread format (show Spread .element (.obj props) from trivial)⟩
      have copied := (encodes_renamed_iff means' typed').mpr ⟨object, onlyRenamed_copyJson format _ .element⟩
      exact copied.of_same (retyped_same typed' (copyJson_noForeign format _ .element))

/-- Encoding in the one format is undone by the other for a document with type keys of the one kind only, and encoding
    twice in one format is encoding once. -/
structure RoundTrips (text : JsonText) (h : Heap) (object : Payload) (j : Json) : Prop where
  fromJson : j.HasKey "eClass" → ¬ j.HasKey "$type" → Reencodes text .jsonV2 .json h object j
  fromJsonV2 : j.HasKey "$type" → ¬ j.HasKey "eClass" → Reencodes text .json .jsonV2 h object j
  idempotent : ∀ format, ∃ result, EncodesAs text format h object result ∧ Reencodes text format format h object result

/-- On objects whose arrays hold no arrays, the encoders round trip exactly where no object has a property `__proto__`,
    or the document has type keys of both kinds or of none. -/
theorem encode_roundTrip_iff (text : JsonText) {h : Heap} {object : Payload} {props : List (String × Json)}
    (means : Means text h object (.obj props)) (flat : nestsNoArray (.obj props) = true) :
    RoundTrips text h object (.obj props) ↔
      ¬ (Json.obj props).HasKey "__proto__" ∨ ((Json.obj props).HasKey "eClass" ↔ (Json.obj props).HasKey "$type") := by
  have spreads := spreadsNoArray_of_flat flat
  have toJsonV2 (untyped : ¬ (Json.obj props).HasKey "$type") := @reencodes_other_iff _ _ _ .jsonV2 _ means untyped spreads
  have toJson (untyped : ¬ (Json.obj props).HasKey "eClass") := @reencodes_other_iff _ _ _ .json _ means untyped spreads
  constructor
  · intro trips
    by_cases eClass : (Json.obj props).HasKey "eClass" <;> by_cases type : (Json.obj props).HasKey "$type"
    · exact .inr (iff_of_true eClass type)
    · exact .inl ((toJsonV2 type).mp (trips.fromJson eClass type))
    · exact .inl ((toJson eClass).mp (trips.fromJsonV2 type eClass))
    · exact .inr (iff_of_false eClass type)
  · intro given
    refine ⟨fun eClass type => ?_, fun type eClass => ?_, fun format => reencodes_same format means⟩
    · exact (toJsonV2 type).mpr (given.resolve_right fun both => type (both.mp eClass))
    · exact (toJson eClass).mpr (given.resolve_right fun both => eClass (both.mpr type))

def decisionNode : Json :=
  .obj [("eClass", .prim (.string "Decision")),
    ("outgoing", .arr [.obj [("eClass", .prim (.string "Flow"))], .prim .null, .prim (.number 2)]), ("incoming", .arr [])]

theorem encode_roundTrip_decisionNode :
    RoundTrips plainText ⟨[]⟩ (.text (plainText.stringify decisionNode)) decisionNode := by
  have means : Means plainText ⟨[]⟩ (.text (plainText.stringify decisionNode)) decisionNode :=
    plainText.parse_stringify decisionNode
  exact (encode_roundTrip_iff plainText means (by decide)).mpr (.inl (Json.not_hasKey (by decide)))

def prototypedNode : Json :=
  .obj [("eClass", .prim (.string "Decision")), ("__proto__", .obj [("name", .prim (.string "Brew"))])]

/-- The property `__proto__` does not come back. -/
theorem encode_loses_prototypedNode :
    nestsNoArray prototypedNode = true ∧ prototypedNode.HasKey "eClass" ∧ ¬ prototypedNode.HasKey "$type" ∧
    Reencodes plainText .jsonV2 .json ⟨[]⟩ (.text (plainText.stringify prototypedNode))
      (.obj [("eClass", .prim (.string "Decision"))]) ∧
    ¬ RoundTrips plainText ⟨[]⟩ (.text (plainText.stringify prototypedNode)) prototypedNode := by
  have means : Means plainText ⟨[]⟩ (.text (plainText.stringify prototypedNode)) prototypedNode :=
    plainText.parse_stringify prototypedNode
  have typed : prototypedNode.HasKey "eClass" := ⟨[], rfl, rfl⟩
  have untyped : ¬ prototypedNode.HasKey "$type" := Json.not_hasKey (by decide)
  have spreads : SpreadsNoArray prototypedNode := spreadsNoArray_of_flat (by decide)
  refine ⟨by decide, typed, untyped, ?_, fun trips => ?_⟩
  · refine (@encodesAs_untyped _ _ _ .jsonV2 _ means untyped).andThen fun means' => ?_
    exact (encodesAs_iff means' _).mpr ⟨_, if_neg (copyJson_noForeign .jsonV2 _ .element), .refl _⟩
  · exact (@reencodes_other_iff _ _ _ .jsonV2 _ means untyped spreads).mp (trips.fromJson typed untyped) ⟨[], rfl, rfl⟩

end RoundTrip

end TypeUtil

end ModelServer
