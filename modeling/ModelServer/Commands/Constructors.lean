import ModelServer.Commands.CommandModel

namespace ModelServer.Commands
open Js Message

/-- The own properties of a command besides its class and type, each of them optional but the first two. -/
structure Fields where
  owner : Value
  feature : String
  indices : Option (List Value) := none
  dataValues : Option (List Value) := none
  objectValues : Option (List Value) := none
  objectsToAdd : Option (List Value) := none

namespace Fields

def entry (name : String) (elems : Option (List Value)) : List (String × Value) :=
  (elems.map fun elems => (name, .arr elems)).toList

def entries (fields : Fields) : List (String × Value) :=
  [("owner", fields.owner), ("feature", Command.text fields.feature)] ++ entry "indices" fields.indices ++
    entry "dataValues" fields.dataValues ++ entry "objectValues" fields.objectValues ++
    entry "objectsToAdd" fields.objectsToAdd

def command (leafClass : LeafClass) (fields : Fields) : Command := .leaf leafClass fields.entries

end Fields

namespace ModelServerReferenceDescription

def create (eClass ref : String) : Value :=
  .obj .object [("eClass", Command.text eClass), ("$ref", Command.text ref)]

/-- The class has no guard of its own, so the static method of its base class is called. -/
def is (object : Json) : Bool := ModelServerObject.is object

end ModelServerReferenceDescription

def isNumberArray (array : List Value) : Bool := array.all fun e => isNumberValue e.toJson

def isModelServerObjectArray (array : List Value) : Bool := array.all fun e => ModelServerObject.is e.toJson

def isModelServerReferenceDescriptionArray (array : List Value) : Bool :=
  array.all fun e => ModelServerReferenceDescription.is e.toJson

/-- `object.eClass`, which is only read of objects that pass the guard. -/
def ModelServerObject.eClass (object : Value) : String :=
  match object.toJson.child "eClass" with
  | some (.prim (.string eClass)) => eClass
  | _ => ""

def RemoveCommand.create (owner : Value) (feature : String) (toDelete : List Value) : Fields :=
  if isNumberArray toDelete then { owner, feature, indices := some toDelete }
  else { owner, feature, objectValues := some toDelete }

/-- The position as a condition sees it: zero counts as missing. -/
def truthyIndex (index : Option Rat) : Option Rat := index.filter fun i => i ≠ 0

def AddCommand.create (owner : Value) (feature : String) (toAdd : List Value) (index : Option Rat) : Fields :=
  let indices := (truthyIndex index).map fun i => [.prim (.number i)]
  if isModelServerObjectArray toAdd then
    let objectValues := toAdd.mapIdx fun i o =>
      ModelServerReferenceDescription.create (ModelServerObject.eClass o) ("//@objectsToAdd." ++ toString i)
    { owner, feature, indices, objectsToAdd := some toAdd, objectValues := some objectValues }
  else { owner, feature, indices, dataValues := some toAdd }

def SetCommand.create (owner : Value) (feature : String) (changedValues : List Value) : Fields :=
  if isModelServerReferenceDescriptionArray changedValues then { owner, feature, objectValues := some changedValues }
  else if isModelServerObjectArray changedValues then { owner, feature, objectsToAdd := some changedValues }
  else { owner, feature, dataValues := some changedValues }

section Sending

theorem lookup_entry_append (name key : String) (elems : Option (List Value)) (rest : List (String × Value)) :
    (Fields.entry name elems ++ rest).lookup key =
      if key = name then (elems.map Value.arr).or (rest.lookup key) else rest.lookup key := by
  cases elems with
  | none => simp [Fields.entry]
  | some elems =>
    simp only [Fields.entry, Option.map_some, Option.toList_some, List.cons_append, List.nil_append, lookup_entry]
    rfl

theorem Fields.lookup_entries (fields : Fields) (key : String) :
    fields.entries.lookup key =
      if key = "owner" then some fields.owner
      else if key = "feature" then some (Command.text fields.feature)
      else if key = "indices" then fields.indices.map .arr
      else if key = "dataValues" then fields.dataValues.map .arr
      else if key = "objectValues" then fields.objectValues.map .arr
      else if key = "objectsToAdd" then fields.objectsToAdd.map .arr
      else none := by
  have last := lookup_entry_append "objectsToAdd" key fields.objectsToAdd []
  rw [List.append_nil, List.lookup_nil, Option.or_none] at last
  simp only [entries, List.append_assoc, List.cons_append, List.nil_append, lookup_entry, lookup_entry_append, last]
  grind

theorem Fields.entries_injective : Function.Injective Fields.entries := by
  intro left right same
  have read := fun key => congrArg (List.lookup key) same
  simp only [lookup_entries] at read
  have arrays : Function.Injective (Option.map Value.arr) := Option.map_injective fun _ _ equal => Value.arr.inj equal
  have owner : left.owner = right.owner := Option.some.inj (read "owner")
  have feature : left.feature = right.feature := by simpa [Command.text] using read "feature"
  have indices : left.indices = right.indices := arrays (read "indices")
  have dataValues : left.dataValues = right.dataValues := arrays (read "dataValues")
  have objectValues : left.objectValues = right.objectValues := arrays (read "objectValues")
  have objectsToAdd : left.objectsToAdd = right.objectsToAdd := arrays (read "objectsToAdd")
  cases left
  cases right
  rw [Fields.mk.injEq]
  exact ⟨owner, feature, indices, dataValues, objectValues, objectsToAdd⟩

theorem Fields.command_injective (leafClass : LeafClass) : Function.Injective (Fields.command leafClass) :=
  fun _ _ same => entries_injective (Command.leaf.inj same).2

theorem constructed_is (fields : Fields) (leafClass : LeafClass) :
    isOfType leafClass.type (fields.command leafClass).toJson = true := by
  have base := Command.is_modelServerCommand (fields.command leafClass)
  rw [isOfType, base, Bool.and_eq_true, Fields.command, Command.toJson_leaf]
  refine ⟨rfl, ?_⟩
  simp [hasProperty, Json.child, lookup_entry, isText]

end Sending

section Classes

def isReference (object : Json) : Bool := ModelServerObject.is object && isString object "$ref"

/-- Exactly one of the three properties holds the changed values, by what they are. -/
structure Classified (changedValues : List Value) (fields : Fields) : Prop where
  references : (∀ v ∈ changedValues, isReference v.toJson = true) →
    fields.objectValues = some changedValues ∧ fields.objectsToAdd = none ∧ fields.dataValues = none
  objects : (∀ v ∈ changedValues, ModelServerObject.is v.toJson = true) →
    (¬ ∀ v ∈ changedValues, isReference v.toJson = true) →
    fields.objectsToAdd = some changedValues ∧ fields.objectValues = none ∧ fields.dataValues = none
  data : (¬ ∀ v ∈ changedValues, ModelServerObject.is v.toJson = true) →
    fields.dataValues = some changedValues ∧ fields.objectValues = none ∧ fields.objectsToAdd = none

theorem object_of_reference {object : Json} (reference : isReference object = true) :
    ModelServerObject.is object = true := (Bool.and_eq_true_iff.mp reference).1

/-- Both guards of the constructor accept the same arrays, so the second branch is never taken. -/
theorem setCommand_create (owner : Value) (feature : String) (changedValues : List Value) :
    SetCommand.create owner feature changedValues =
      if isModelServerObjectArray changedValues then { owner, feature, objectValues := some changedValues }
      else { owner, feature, dataValues := some changedValues } := by
  have same : isModelServerReferenceDescriptionArray changedValues = isModelServerObjectArray changedValues := rfl
  rw [SetCommand.create, same]
  split <;> rfl

theorem isModelServerObjectArray_iff (array : List Value) :
    isModelServerObjectArray array = true ↔ ∀ v ∈ array, ModelServerObject.is v.toJson = true := List.all_eq_true

/-- The values are in their place but for arrays of objects that are not all references. -/
theorem setCommand_classified_iff (owner : Value) (feature : String) (changedValues : List Value) :
    (SetCommand.create owner feature changedValues).owner = owner ∧
        (SetCommand.create owner feature changedValues).feature = feature ∧
        Classified changedValues (SetCommand.create owner feature changedValues) ↔
      ((∀ v ∈ changedValues, ModelServerObject.is v.toJson = true) → ∀ v ∈ changedValues, isReference v.toJson = true) := by
  rw [setCommand_create]
  by_cases objects : ∀ v ∈ changedValues, ModelServerObject.is v.toJson = true
  · rw [if_pos ((isModelServerObjectArray_iff changedValues).mpr objects)]
    constructor
    · intro given _
      rcases given with ⟨-, -, classified⟩
      by_contra other
      cases (classified.objects objects other).1
    · intro references
      have all := references objects
      exact ⟨rfl, rfl, fun _ => ⟨rfl, rfl, rfl⟩, fun _ other => absurd all other, fun other => absurd objects other⟩
  · rw [if_neg (fun accepted => objects ((isModelServerObjectArray_iff changedValues).mp accepted))]
    refine ⟨fun _ all => absurd all objects, fun _ => ⟨rfl, rfl, ?_, fun all _ => absurd all objects, fun _ => ⟨rfl, rfl, rfl⟩⟩⟩
    intro references
    exact absurd (fun v member => object_of_reference (references v member)) objects

def newTask : Value := .obj .object [("eClass", Command.text "http://www.example.org/coffee#//ManualTask")]

def workflow : Value := ModelServerReferenceDescription.create "http://www.example.org/coffee#//Workflow" "//@workflows.0"

/-- A new object is sent as a reference. -/
theorem setCommand_misses_new_object :
    (SetCommand.create workflow "nodes" [newTask]).objectValues = some [newTask] ∧
      (SetCommand.create workflow "nodes" [newTask]).objectsToAdd = none ∧
      ¬ Classified [newTask] (SetCommand.create workflow "nodes" [newTask]) := by
  have sent : (SetCommand.create workflow "nodes" [newTask]).objectsToAdd = none := by rfl
  refine ⟨by rfl, sent, ?_⟩
  intro classified
  have placed := classified.objects (by decide) (by decide)
  rw [sent] at placed
  cases placed.1

end Classes

section Deletions

/-- Unlike the other commands, a remove can always be told from one that was built from other arguments. -/
theorem removeCommand_encodes {owner owner' : Value} {feature feature' : String} {toDelete toDelete' : List Value} :
    (RemoveCommand.create owner feature toDelete).command .removeCommand =
        (RemoveCommand.create owner' feature' toDelete').command .removeCommand ↔
      owner = owner' ∧ feature = feature' ∧ toDelete = toDelete' := by
  rw [(Fields.command_injective .removeCommand).eq_iff]
  constructor
  · intro same
    unfold RemoveCommand.create at same
    cases positions : isNumberArray toDelete <;> cases positions' : isNumberArray toDelete' <;>
      simp only [positions, positions', if_true, if_false, Bool.false_eq_true, Fields.mk.injEq, Option.some.injEq, reduceCtorEq,
        and_false, false_and] at same
    · exact ⟨same.1, same.2.1, same.2.2.2.2.1⟩
    · exact ⟨same.1, same.2.1, same.2.2.1⟩
  · rintro ⟨rfl, rfl, rfl⟩
    rfl

end Deletions

section Positions

def isDataValue : Json → Bool
  | .prim (.bool _) | .prim (.number _) | .prim (.string _) => true
  | _ => false

structure Addition where
  owner : Value
  feature : String
  toAdd : List Value
  index : Option Rat
  nonEmpty : toAdd ≠ []
  sameKind : (∀ v ∈ toAdd, ModelServerObject.is v.toJson = true) ∨ ∀ v ∈ toAdd, isDataValue v.toJson = true

namespace Addition

def fields (addition : Addition) : Fields :=
  AddCommand.create addition.owner addition.feature addition.toAdd addition.index

def command (addition : Addition) : Command := addition.fields.command .addCommand

structure Encoded (addition : Addition) (fields : Fields) : Prop where
  owner : fields.owner = addition.owner
  feature : fields.feature = addition.feature
  indices : fields.indices = addition.index.map fun index => [.prim (.number index)]
  objects : (∀ v ∈ addition.toAdd, ModelServerObject.is v.toJson = true) →
    fields.objectsToAdd = some addition.toAdd ∧ fields.dataValues = none ∧
      ∃ objectValues, fields.objectValues = some objectValues ∧ objectValues.length = addition.toAdd.length ∧
        ∀ (k : Nat) (o : Value), addition.toAdd[k]? = some o →
          objectValues[k]? = some (ModelServerReferenceDescription.create (ModelServerObject.eClass o)
            ("//@objectsToAdd." ++ toString k))
  data : (∀ v ∈ addition.toAdd, isDataValue v.toJson = true) →
    fields.dataValues = some addition.toAdd ∧ fields.objectsToAdd = none ∧ fields.objectValues = none

theorem not_object_of_data {v : Json} (data : isDataValue v = true) : ModelServerObject.is v = false := by
  cases v with
  | prim p => rfl
  | arr elems => cases data
  | obj props => cases data

theorem not_objects_of_data {addition : Addition} (data : ∀ v ∈ addition.toAdd, isDataValue v.toJson = true) :
    isModelServerObjectArray addition.toAdd = false := by
  rcases List.exists_mem_of_ne_nil _ addition.nonEmpty with ⟨v, member⟩
  rw [isModelServerObjectArray, List.all_eq_false]
  exact ⟨v, member, by rw [not_object_of_data (data v member)]; decide⟩

theorem fields_indices (addition : Addition) :
    addition.fields.indices = (truthyIndex addition.index).map fun index => [.prim (.number index)] := by
  unfold fields AddCommand.create
  split <;> rfl

theorem encoded_of_indices {addition : Addition}
    (indices : addition.fields.indices = addition.index.map fun index => [.prim (.number index)]) :
    Encoded addition addition.fields where
  owner := by unfold fields AddCommand.create; split <;> rfl
  feature := by unfold fields AddCommand.create; split <;> rfl
  indices := indices
  objects all := by
    have accepted := (isModelServerObjectArray_iff addition.toAdd).mpr all
    simp only [fields, AddCommand.create, accepted, if_true]
    refine ⟨trivial, trivial, _, rfl, by simp, ?_⟩
    intro k o found
    simp [found]
  data all := by
    have refused := not_objects_of_data all
    simp only [fields, AddCommand.create, refused, Bool.false_eq_true, if_false]
    exact ⟨trivial, trivial, trivial⟩

theorem indices_kept_iff (index : Option Rat) :
    ((truthyIndex index).map fun i => [Value.prim (.number i)]) = index.map (fun i => [Value.prim (.number i)]) ↔
      index ≠ some 0 := by
  cases index with
  | none => simp [truthyIndex]
  | some i =>
    by_cases zero : i = 0
    · simp [truthyIndex, zero]
    · simp [truthyIndex, zero]

theorem encoded_iff (addition : Addition) : Encoded addition addition.fields ↔ addition.index ≠ some 0 := by
  rw [← indices_kept_iff, ← fields_indices]
  exact ⟨Encoded.indices, encoded_of_indices⟩

theorem ext_of_data {left right : Addition} (owner : left.owner = right.owner) (feature : left.feature = right.feature)
    (toAdd : left.toAdd = right.toAdd) (index : left.index = right.index) : left = right := by
  cases left
  cases right
  subst owner feature toAdd index
  rfl

theorem Encoded.determines {left right : Addition} {fields : Fields} (encoded : Encoded left fields)
    (encoded' : Encoded right fields) : left = right := by
  have positions : Function.Injective (Option.map fun index : Rat => [Value.prim (.number index)]) := by
    apply Option.map_injective
    intro i j same
    simpa using same
  apply ext_of_data (encoded.owner.symm.trans encoded'.owner) (encoded.feature.symm.trans encoded'.feature)
  · rcases left.sameKind with objects | data
    · have added := encoded.objects objects
      rcases right.sameKind with objects' | data'
      · exact Option.some.inj (added.1.symm.trans (encoded'.objects objects').1)
      · cases added.1.symm.trans (encoded'.data data').2.1
    · have added := encoded.data data
      rcases right.sameKind with objects' | data'
      · cases added.1.symm.trans (encoded'.objects objects').2.1
      · exact Option.some.inj (added.1.symm.trans (encoded'.data data').1)
  · exact positions (encoded.indices.symm.trans encoded'.indices)

/-- Commands say what they were built from, and differ when they were built from different arguments, just where
    neither of them adds at position zero. -/
theorem addCommand_encodes_iff (addition addition' : Addition) :
    (Encoded addition addition.fields ∧ Encoded addition' addition'.fields ∧
        (addition ≠ addition' → addition.command ≠ addition'.command)) ↔
      addition.index ≠ some 0 ∧ addition'.index ≠ some 0 := by
  rw [encoded_iff, encoded_iff]
  constructor
  · intro given
    exact ⟨given.1, given.2.1⟩
  · intro given
    refine ⟨given.1, given.2, fun differ same => differ ?_⟩
    have fields : addition.fields = addition'.fields := Fields.command_injective .addCommand same
    have encoded := (encoded_iff addition).mpr given.1
    rw [fields] at encoded
    exact encoded.determines ((encoded_iff addition').mpr given.2)

def inFront : Addition where
  owner := workflow
  feature := "nodes"
  toAdd := [newTask]
  index := some 0
  nonEmpty := by simp
  sameKind := .inl (by decide)

def appended : Addition := { inFront with index := none }

/-- Inserting at the front gives the command that appends. -/
theorem addCommand_forgets_front :
    inFront.index ≠ appended.index ∧ inFront.command = appended.command ∧ ¬ Encoded inFront inFront.fields := by
  refine ⟨by decide, by rfl, ?_⟩
  intro encoded
  cases encoded.indices

end Addition

end Positions

end ModelServer.Commands
