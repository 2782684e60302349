import ModelServer.Commands.Wire
import ModelServer.TypeUtil.RoundTrip
import ModelServer.Js.PatchLaws

namespace ModelServer.Commands
open Js Message TypeUtil Relations

def typeKeys (format : JsonFormat) : Equiv.Perm String := Equiv.swap format.foreignKey format.typeKey

section Retyped

variable {format : JsonFormat}

theorem typeKeys_other {key : String} (foreign : key ≠ format.foreignKey) (type : key ≠ format.typeKey) :
    typeKeys format key = key := Equiv.swap_apply_of_ne_of_ne foreign type

theorem typeKeys_symm (format : JsonFormat) : (typeKeys format).symm = typeKeys format := Equiv.symm_swap _ _

/-- Where no object has the key of the format, renaming the other key is exchanging the two. -/
theorem retyped_same_relabel {j : Json} (untyped : ¬ j.HasKey format.typeKey) :
    (retyped format j).Same (j.relabel (typeKeys format)) := by
  induction j using Json.child_induct with
  | step j ih =>
  refine Json.same_of_children (by rw [shape_retyped, Json.shape_relabel]) fun key => ?_
  have below : ∀ name, Option.Rel Json.Same ((j.child name).map (retyped format))
      ((j.child name).map (Json.relabel (typeKeys format))) :=
    fun name => (rel_map_iff _).mpr fun c found => ih name c found (Json.not_hasKey_child untyped found)
  cases j with
  | prim p => exact .none
  | arr elems =>
    rw [child_retyped_arr, Json.child_relabel_arr]
    exact below key
  | obj props =>
    have free : props.lookup format.typeKey = none := Json.lookup_of_not_hasKey untyped
    rw [lookup_retyped free, Json.child_relabel_obj, typeKeys_symm, moved]
    by_cases foreign : key = format.foreignKey
    · subst foreign
      rw [if_pos rfl, typeKeys, Equiv.swap_apply_left, Json.child, free]
      exact .none
    · rw [if_neg foreign]
      by_cases type : key = format.typeKey
      · subst type
        rw [if_pos rfl, typeKeys, Equiv.swap_apply_right]
        exact below format.foreignKey
      · rw [if_neg type, typeKeys_other foreign type]
        exact below key

def AvoidsTypeKeys (ops : List (Operation Json)) : Prop :=
  ∀ op ∈ ops, ∀ token ∈ op.tokens, token ≠ "eClass" ∧ token ≠ "$type"

theorem AvoidsTypeKeys.fixed {ops : List (Operation Json)} (avoids : AvoidsTypeKeys ops) (format : JsonFormat) :
    ∀ op ∈ ops, ∀ token ∈ op.tokens, typeKeys format token = token := by
  intro op member token inside
  rcases avoids op member token inside with ⟨eClass, type⟩
  cases format
  · exact typeKeys_other type eClass
  · exact typeKeys_other eClass type

theorem AvoidsTypeKeys.not_mem {ops : List (Operation Json)} (avoids : AvoidsTypeKeys ops) (format : JsonFormat) :
    ∀ op ∈ ops, format.typeKey ∉ op.tokens := by
  intro op member inside
  rcases avoids op member _ inside with ⟨eClass, type⟩
  cases format
  · exact eClass rfl
  · exact type rfl

theorem values_ofChild {op x : Json} (member : x ∈ (Operation.ofChild op.child Json.string?).values) :
    op.child "value" = some x := by
  have valued : ∀ {make : Json → Operation Json}, (∀ y, (make y).values = [y]) →
      x ∈ (((op.child "value").map make).getD .invalid).values → op.child "value" = some x := by
    intro make each inside
    cases found : op.child "value" with
    | none => simp [found, Operation.values] at inside
    | some y =>
      rw [found, Option.map_some, Option.getD_some, each, List.mem_singleton] at inside
      rw [inside]
  have plain : ∀ {make : String → Operation Json}, (∀ source, (make source).values = []) →
      x ∈ ((((op.child "from").bind Json.string?).map make).getD .invalid).values → op.child "value" = some x := by
    intro make each inside
    cases found : (op.child "from").bind Json.string? with
    | none => simp [found, Operation.values] at inside
    | some source => simp [found, each] at inside
  unfold Operation.ofChild at member
  split at member
  · split_ifs at member
    · cases member
    · exact valued (fun _ => rfl) member
    · exact valued (fun _ => rfl) member
    · exact valued (fun _ => rfl) member
    · exact plain (fun _ => rfl) member
    · exact plain (fun _ => rfl) member
    · cases member
  · cases member

theorem values_untyped {patch : Json} {key : String} (untyped : ¬ patch.HasKey key) :
    ∀ op ∈ patch.operations, ∀ x ∈ op.values, ¬ x.HasKey key := by
  intro op member x inside typed
  cases patch with
  | prim p => cases member
  | obj props => cases member
  | arr elems =>
    rcases List.mem_map.mp member with ⟨element, listed, rfl⟩
    rcases List.mem_iff_getElem?.mp listed with ⟨i, at_i⟩
    have found : (Json.arr elems).child (indexName i) = some element := by simp [Json.child, at_i]
    have below : element.HasKey key := (Json.hasKey_iff _ _).mpr (.inr ⟨"value", x, values_ofChild inside, typed⟩)
    exact untyped ((Json.hasKey_iff _ _).mpr (.inr ⟨_, element, found, below⟩))

/-- A converted patch does to a converted document what the patch does to the document, converted. -/
theorem patched_converts {document patch document' patch' : Json} (untyped : ¬ document.HasKey format.typeKey)
    (patchUntyped : ¬ patch.HasKey format.typeKey) (avoids : AvoidsTypeKeys patch.operations)
    (converts : document'.Same (retyped format document)) (patchConverts : patch'.Same (retyped format patch)) :
    Option.Rel (fun result' result => result'.Same (retyped format result) ∧ ¬ result.HasKey format.typeKey)
      (document'.patched patch'.operations) (document.patched patch.operations) := by
  have keys : ∀ key ∈ operationKeys, typeKeys format key = key := by cases format <;> decide
  have operations := Json.operations_same (patchConverts.trans (retyped_same_relabel patchUntyped))
  rw [Json.operations_relabel keys] at operations
  have related := Json.patched_same operations (converts.trans (retyped_same_relabel untyped))
  rw [Json.patched_relabel (avoids.fixed format)] at related
  revert related
  cases patched : document.patched patch.operations <;> cases document'.patched patch'.operations <;> intro related
  · exact .none
  · cases related
  · cases related
  · rename_i result result'
    have free := Json.not_hasKey_patched (values_untyped patchUntyped) (avoids.not_mem format) untyped patched
    cases related with
    | some same => exact .some ⟨same.trans (retyped_same_relabel free).symm, free⟩

end Retyped

section Edit

variable {text : JsonText} {format : JsonFormat} {modeluri : String} {defaultFormat : Format}

def patchOf (patchOrCommand : Value) : Json := .arr (fullPatch patchOrCommand.toJson)

theorem edit_patch {patchOrCommand : Value} (plain : patchOrCommand.instanceofModelServerCommand = false)
    (some : fullPatch patchOrCommand.toJson ≠ []) (fuel : Nat) (format : Option Format) :
    ModelServerClientV2.edit text fuel defaultFormat modeluri patchOrCommand format =
      patchRequest text fuel modeluri (format.getD defaultFormat) (patchMessage patchType (patchOf patchOrCommand)) := by
  have nonempty : (fullPatch patchOrCommand.toJson).isEmpty = false := by simpa using some
  rw [ModelServerClientV2.edit, if_neg (by simp [plain]), if_neg (by simp [nonempty]), patchOf]

theorem sent_retyped {patchOrCommand : Value} {body : Json} (plain : patchOrCommand.instanceofModelServerCommand = false)
    (some : fullPatch patchOrCommand.toJson ≠ []) (untyped : ¬ (patchOf patchOrCommand).HasKey format.typeKey)
    (regular : OnlyRenamed (patchOf patchOrCommand))
    (sends : Sends (fun fuel => ModelServerClientV2.edit text fuel defaultFormat modeluri patchOrCommand format.name) body) :
    ∃ patch, sentData body = Option.some patch ∧ patch.Same (retyped format (patchOf patchOrCommand)) := by
  have messageUntyped : ¬ (patchMessage patchType (patchOf patchOrCommand)).HasKey format.typeKey := by
    rw [hasKey_patchMessage (by cases format <;> decide) (by cases format <;> decide)]
    exact untyped
  have messageRegular : OnlyRenamed (patchMessage patchType (patchOf patchOrCommand)) := by
    refine ⟨.obj (List.forall_mem_cons.mpr ⟨.prim _, List.forall_mem_cons.mpr ⟨regular.1, nofun⟩⟩), ?_⟩
    rw [hasKey_patchMessage (by decide) (by decide)]
    exact regular.2
  rcases (converted_same_iff messageUntyped).mpr ⟨⟨_, rfl⟩, messageRegular⟩ with ⟨result, converts, same⟩
  simp only [edit_patch plain some, Option.getD_some] at sends
  have bodySame := (sends_iff converts body).mp sends
  have inner : (retyped format (patchMessage patchType (patchOf patchOrCommand))).child "data" =
      Option.some (retyped format (patchOf patchOrCommand)) := by
    cases format <;> rfl
  have related := sentData_same (bodySame.symm.trans (bodyOf_same same))
  rw [show sentData (bodyOf (retyped format (patchMessage patchType (patchOf patchOrCommand)))) = _ from inner] at related
  cases sent : sentData body with
  | none => rw [sent] at related; cases related
  | some patch =>
    rw [sent] at related
    cases related with
    | some patchSame => exact ⟨patch, rfl, patchSame⟩

/-- A patch in the default format that does not reach for the type of an object. -/
structure PlainPatch (format : JsonFormat) (patchOrCommand : Value) : Prop where
  plain : patchOrCommand.instanceofModelServerCommand = false
  some : fullPatch patchOrCommand.toJson ≠ []
  untyped : ¬ (patchOf patchOrCommand).HasKey format.typeKey
  regular : OnlyRenamed (patchOf patchOrCommand)
  avoids : AvoidsTypeKeys (patchOf patchOrCommand).operations

def replay (document : Json) : List Json → Option Json
  | [] => some document
  | patch :: rest => (document.patched patch.operations).bind (replay · rest)

theorem replay_converts {edits : List Value} {patches : List Json}
    (sent : List.Forall₂ (fun edit patch => PlainPatch format edit ∧ patch.Same (retyped format (patchOf edit))) edits
      patches) {document document' : Json} (untyped : ¬ document.HasKey format.typeKey)
    (converts : document'.Same (retyped format document)) :
    Option.Rel (fun result' result => result'.Same (retyped format result) ∧ ¬ result.HasKey format.typeKey)
      (replay document' patches) (replay document (edits.map patchOf)) := by
  induction sent generalizing document document' with
  | nil => exact .some ⟨converts, untyped⟩
  | @cons edit patch edits patches first _ ih =>
    have stepped := patched_converts untyped first.1.untyped first.1.avoids converts first.2
    rw [List.map_cons, replay, replay]
    revert stepped
    cases document.patched (patchOf edit).operations <;> cases document'.patched patch.operations <;> intro stepped
    · exact .none
    · cases stepped
    · cases stepped
    · cases stepped with
      | some converted => exact ih converted.2 converted.1

def SendsEdit (text : JsonText) (defaultFormat : Format) (modeluri : String) (format : JsonFormat) (edit : Value)
    (body : Json) : Prop :=
  Sends (fun fuel => ModelServerClientV2.edit text fuel defaultFormat modeluri edit format.name) body

theorem sent_each {edits : List Value} {bodies : List Json} (plain : ∀ edit ∈ edits, PlainPatch format edit)
    (sends : List.Forall₂ (SendsEdit text defaultFormat modeluri format) edits bodies) :
    ∃ patches, bodies.map sentData = patches.map Option.some ∧
      List.Forall₂ (fun edit patch => PlainPatch format edit ∧ patch.Same (retyped format (patchOf edit))) edits
        patches := by
  induction sends with
  | nil => exact ⟨[], rfl, .nil⟩
  | cons first _ ih =>
    rcases List.forall_mem_cons.mp plain with ⟨here, later⟩
    rcases sent_retyped here.plain here.some here.untyped here.regular first with ⟨patch, sent, same⟩
    rcases ih later with ⟨patches, rest, each⟩
    exact ⟨patch :: patches, by rw [List.map_cons, List.map_cons, sent, rest], .cons ⟨here, same⟩ each⟩

/-- Encoding and patching commute: the patches that are sent in a format do to the document that was sent in this
    format, one after the other, what the patches themselves do to the document itself, encoded. -/
theorem edits_commute_with_encoding {edits : List Value} {bodies : List Json} {encoded : Json}
    {props : List (String × Json)} {h : Heap} {object : Payload} (plain : ∀ edit ∈ edits, PlainPatch format edit)
    (means : Means text h object (.obj props)) (untyped : ¬ (Json.obj props).HasKey format.typeKey)
    (regular : OnlyRenamed (.obj props)) (encodes : EncodesAs text format h object encoded)
    (sends : List.Forall₂ (SendsEdit text defaultFormat modeluri format) edits bodies) :
    ∃ patches, bodies.map sentData = patches.map Option.some ∧
      Option.Rel (fun result' result => result'.Same (retyped format result) ∧
          ∀ h₂ object₂, Means text h₂ object₂ result → (∃ props, result = .obj props) → OnlyRenamed result →
            EncodesAs text format h₂ object₂ result')
        (replay encoded patches) (replay (.obj props) (edits.map patchOf)) := by
  rcases sent_each plain sends with ⟨patches, sent, each⟩
  rcases (encodesAs_iff means encoded).mp encodes with ⟨result, converts, same⟩
  rcases (converted_same_iff untyped).mpr ⟨⟨props, rfl⟩, regular⟩ with ⟨result', converts', same'⟩
  cases converts.symm.trans converts'
  refine ⟨patches, sent, ?_⟩
  refine rel_mono (replay_converts each untyped (same.symm.trans same')) ?_
  intro final' final _ _ converted
  refine ⟨converted.1, fun h₂ object₂ means₂ object regular₂ => ?_⟩
  exact ((encodes_renamed_iff means₂ converted.2).mpr ⟨object, regular₂⟩).of_same converted.1.symm

def namedTask : Json := .obj [("$type", .prim (.string "Task")), ("name", .prim (.string "brew"))]

def addFlow : Json :=
  .obj [("op", .prim (.string "add")), ("path", .prim (.string "/flow")),
    ("value", .obj [("$type", .prim (.string "Flow"))])]

def renameTask : Json :=
  .obj [("op", .prim (.string "replace")), ("path", .prim (.string "/name")), ("value", .prim (.string "drink"))]

theorem plainPatch_ofJson {operation : Json} {format : JsonFormat} {tokens : List String}
    (full : fullPatch operation = [operation]) (untyped : operation.mentions format.typeKey = false)
    (regular : OnlyRenamed (.arr [operation])) (only : (Json.arr [operation]).operations.flatMap Operation.tokens = tokens)
    (avoids : "eClass" ∉ tokens ∧ "$type" ∉ tokens) : PlainPatch format (Value.ofJson operation) := by
  have patch : patchOf (Value.ofJson operation) = .arr [operation] := by rw [patchOf, Value.toJson_ofJson, full]
  constructor
  · cases operation <;> rfl
  · rw [Value.toJson_ofJson, full]
    exact nofun
  · rw [patch]
    apply Json.not_hasKey
    simp only [Json.mentions, Json.mentionsElems, untyped, Bool.or_self]
  · rwa [patch]
  · rw [patch]
    intro op member token inside
    have listed : token ∈ tokens := only ▸ List.mem_flatMap.mpr ⟨op, member, inside⟩
    exact ⟨fun same => avoids.1 (same ▸ listed), fun same => avoids.2 (same ▸ listed)⟩

theorem edits_commute_with_encoding_addFlow :
    ∃ bodies encoded patches, List.Forall₂ (SendsEdit plainText FORMAT_JSON_V2 "a.tasks" .json)
        [Value.ofJson addFlow, Value.ofJson renameTask] bodies ∧
      EncodesAs plainText .json ⟨[]⟩ (.text (plainText.stringify namedTask)) encoded ∧
      bodies.map sentData = patches.map some ∧
      Option.Rel (fun result' result => result'.Same (retyped .json result) ∧
          ∀ h₂ object₂, Means plainText h₂ object₂ result → (∃ props, result = .obj props) → OnlyRenamed result →
            EncodesAs plainText .json h₂ object₂ result')
        (replay encoded patches)
        (replay namedTask ([Value.ofJson addFlow, Value.ofJson renameTask].map patchOf)) := by
  have means : Means plainText ⟨[]⟩ (.text (plainText.stringify namedTask)) namedTask :=
    plainText.parse_stringify namedTask
  have untyped : ¬ namedTask.HasKey JsonFormat.json.typeKey := Json.not_hasKey (by decide)
  have regular : OnlyRenamed namedTask := onlyRenamed_of_flat (by decide) (by decide)
  have adds : PlainPatch .json (Value.ofJson addFlow) :=
    plainPatch_ofJson rfl (by decide) (onlyRenamed_of_flat (by decide) (by decide)) rfl (by decide)
  have renames : PlainPatch .json (Value.ofJson renameTask) :=
    plainPatch_ofJson rfl (by decide) (onlyRenamed_of_flat (by decide) (by decide)) rfl (by decide)
  have plain : ∀ edit ∈ [Value.ofJson addFlow, Value.ofJson renameTask], PlainPatch .json edit :=
    List.forall_mem_cons.mpr ⟨adds, List.forall_mem_singleton.mpr renames⟩
  have encodes := (encodes_renamed_iff means untyped).mpr ⟨⟨_, rfl⟩, regular⟩
  have sends {edit : Value} (patch : PlainPatch .json edit) :
      ∃ body, SendsEdit plainText FORMAT_JSON_V2 "a.tasks" .json edit body := by
    rcases converted_patchMessage .json patchType (patchOf edit) with ⟨result, converts, -⟩
    refine ⟨bodyOf result, ?_⟩
    simp only [SendsEdit, edit_patch patch.plain patch.some]
    exact (sends_iff converts (bodyOf result)).mpr (.refl _)
  rcases sends adds with ⟨first, sendsFirst⟩
  rcases sends renames with ⟨second, sendsSecond⟩
  have each := List.Forall₂.cons sendsFirst (.cons sendsSecond .nil)
  rcases edits_commute_with_encoding plain means untyped regular encodes each with
    ⟨patches, sent, agree⟩
  exact ⟨_, _, patches, each, encodes, sent, agree⟩

end Edit

end ModelServer.Commands
