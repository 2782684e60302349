import ModelServer.Message.Guards

namespace ModelServer.Commands
open Js Message

/-- The prototypes that `instanceof ModelServerCommand` tells apart. -/
inductive Prototype
  | object
  | modelServerCommand
  | setCommand
  | addCommand
  | removeCommand
  | compoundCommand
  deriving DecidableEq, Repr

/-- A tree of JavaScript values. Own properties that are undefined are left out: no guard reads them and
    no request body holds them. -/
inductive Value
  | prim (p : Prim)
  | arr (elems : List Value)
  | obj (prototype : Prototype) (props : List (String × Value))

namespace Value

mutual

def toJson : Value → Json
  | prim p => .prim p
  | arr elems => .arr (toJsonElems elems)
  | obj _ props => .obj (toJsonProps props)

def toJsonElems : List Value → List Json
  | [] => []
  | e :: rest => toJson e :: toJsonElems rest

def toJsonProps : List (String × Value) → List (String × Json)
  | [] => []
  | (name, value) :: rest => (name, toJson value) :: toJsonProps rest

end

mutual

def ofJson : Json → Value
  | .prim p => prim p
  | .arr elems => arr (ofJsonElems elems)
  | .obj props => obj .object (ofJsonProps props)

def ofJsonElems : List Json → List Value
  | [] => []
  | e :: rest => ofJson e :: ofJsonElems rest

def ofJsonProps : List (String × Json) → List (String × Value)
  | [] => []
  | (name, value) :: rest => (name, ofJson value) :: ofJsonProps rest

end

mutual

@[simp] theorem toJson_ofJson : ∀ j : Json, (ofJson j).toJson = j
  | .prim p => rfl
  | .arr elems => by rw [ofJson, toJson, toJsonElems_ofJsonElems elems]
  | .obj props => by rw [ofJson, toJson, toJsonProps_ofJsonProps props]

theorem toJsonElems_ofJsonElems : ∀ elems : List Json, toJsonElems (ofJsonElems elems) = elems
  | [] => rfl
  | e :: rest => by rw [ofJsonElems, toJsonElems, toJson_ofJson e, toJsonElems_ofJsonElems rest]

theorem toJsonProps_ofJsonProps : ∀ props : List (String × Json), toJsonProps (ofJsonProps props) = props
  | [] => rfl
  | (name, value) :: rest => by rw [ofJsonProps, toJsonProps, toJson_ofJson value, toJsonProps_ofJsonProps rest]

end

def wire (v : Value) : Value := ofJson v.toJson

@[simp] theorem toJson_wire (v : Value) : v.wire.toJson = v.toJson := toJson_ofJson v.toJson

def instanceofModelServerCommand : Value → Bool
  | obj prototype _ => prototype ≠ .object
  | _ => false

def setPrototypeOf (prototype : Prototype) : Value → Value
  | obj _ props => obj prototype props
  | v => v

end Value

namespace ModelServerCommand

def URI : String := ModelServerCommandPackage.NS_URI ++ "#//Command"

def is (object : Json) : Bool :=
  ModelServerObject.is object && hasProperty (isText URI) object "eClass" && isString object "type"

end ModelServerCommand

namespace CompoundCommand

def TYPE : String := "compound"

def URI : String := ModelServerCommandPackage.NS_URI ++ "#//CompoundCommand"

def is (object : Json) : Bool :=
  ModelServerObject.is object && hasProperty (isText URI) object "eClass" && isString object "type" &&
    hasProperty (isText TYPE) object "type" && (object.child "commands").isSome

end CompoundCommand

def isOfType (type : String) (object : Json) : Bool :=
  ModelServerCommand.is object && hasProperty (isText type) object "type"

def RemoveCommand.TYPE : String := "remove"

def RemoveCommand.is (object : Json) : Bool := isOfType RemoveCommand.TYPE object

def AddCommand.TYPE : String := "add"

def AddCommand.is (object : Json) : Bool := isOfType AddCommand.TYPE object

def SetCommand.TYPE : String := "set"

def SetCommand.is (object : Json) : Bool := isOfType SetCommand.TYPE object

inductive LeafClass
  | setCommand
  | addCommand
  | removeCommand
  | custom (type : String)
  deriving DecidableEq, Repr

namespace LeafClass

def prototype : LeafClass → Prototype
  | setCommand => .setCommand
  | addCommand => .addCommand
  | removeCommand => .removeCommand
  | custom _ => .modelServerCommand

def type : LeafClass → String
  | setCommand => SetCommand.TYPE
  | addCommand => AddCommand.TYPE
  | removeCommand => RemoveCommand.TYPE
  | custom type => type

end LeafClass

/-- A tree of commands. The fields are the other own properties of an instance. -/
inductive Command
  | leaf (leafClass : LeafClass) (fields : List (String × Value))
  | compound (commands : List Command) (fields : List (String × Value))

namespace Command

def text (s : String) : Value := .prim (.string s)

mutual

def toValue : Command → Value
  | leaf leafClass fields =>
    .obj leafClass.prototype (("eClass", text ModelServerCommand.URI) :: ("type", text leafClass.type) :: fields)
  | compound commands fields =>
    .obj .compoundCommand (("eClass", text CompoundCommand.URI) :: ("type", text CompoundCommand.TYPE) ::
      ("commands", .arr (toValues commands)) :: fields)

def toValues : List Command → List Value
  | [] => []
  | c :: rest => toValue c :: toValues rest

end

def isCompound : Command → Bool
  | leaf _ _ => false
  | compound _ _ => true

def toJson (c : Command) : Json := c.toValue.toJson

theorem toJson_leaf (leafClass : LeafClass) (fields : List (String × Value)) :
    (leaf leafClass fields).toJson = .obj (("eClass", .prim (.string ModelServerCommand.URI)) ::
      ("type", .prim (.string leafClass.type)) :: Value.toJsonProps fields) := by
  simp only [toJson, toValue, Value.toJson, Value.toJsonProps, text]

theorem toJson_compound (commands : List Command) (fields : List (String × Value)) :
    (compound commands fields).toJson = .obj (("eClass", .prim (.string CompoundCommand.URI)) ::
      ("type", .prim (.string CompoundCommand.TYPE)) :: ("commands", .arr (Value.toJsonElems (toValues commands))) ::
        Value.toJsonProps fields) := by
  simp only [toJson, toValue, Value.toJson, Value.toJsonProps, text]

theorem toJson_obj (c : Command) : ∃ props, c.toJson = .obj props := by
  cases c with
  | leaf leafClass fields => exact ⟨_, toJson_leaf leafClass fields⟩
  | compound commands fields => exact ⟨_, toJson_compound commands fields⟩

theorem instanceof_toValue (c : Command) : c.toValue.instanceofModelServerCommand = true := by
  cases c with
  | compound commands fields => rw [toValue]; rfl
  | leaf leafClass fields =>
    rw [toValue]
    cases leafClass <;> rfl

/-- The guard of the base class accepts the commands that hold no others, and these only. -/
theorem is_modelServerCommand (c : Command) : ModelServerCommand.is c.toJson = !c.isCompound := by
  cases c with
  | leaf leafClass fields =>
    rw [toJson_leaf]
    rfl
  | compound commands fields =>
    have other : CompoundCommand.URI ≠ ModelServerCommand.URI := by decide
    rw [toJson_compound]
    change (true && decide (CompoundCommand.URI = ModelServerCommand.URI) && true) = false
    simp [other]

theorem is_compoundCommand (c : Command) : CompoundCommand.is c.toJson = c.isCompound := by
  cases c with
  | leaf leafClass fields =>
    have other : ModelServerCommand.URI ≠ CompoundCommand.URI := by decide
    rw [toJson_leaf]
    simp [CompoundCommand.is, hasProperty, Json.child, List.lookup_cons, isText, other, isCompound]
  | compound commands fields =>
    rw [toJson_compound]
    rfl

theorem hasKey_eClass (c : Command) : c.toJson.HasKey "eClass" := by
  rw [Json.hasKey_iff]
  cases c with
  | leaf leafClass fields =>
    rw [toJson_leaf]
    exact .inl ⟨rfl, rfl⟩
  | compound commands fields =>
    rw [toJson_compound]
    exact .inl ⟨rfl, rfl⟩

end Command

end ModelServer.Commands
