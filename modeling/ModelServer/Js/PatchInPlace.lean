import ModelServer.Js.JsonPatch

namespace Js

namespace Cell

def node : Cell → Node Val
  | object props => .object props
  | array elems => .array elems

@[simp] theorem child_node (c : Cell) (key : String) : c.node.child key = c.child key := by
  cases c <;> rfl

end Cell

def Node.toCell : Node Val → Cell
  | .object props => .object props
  | .array elems => .array elems

@[simp] theorem Node.child_toCell (n : Node Val) (key : String) : n.toCell.child key = n.child key := by
  cases n <;> rfl

namespace Heap

def target (h : Heap) (v : Val) (path : List String) : Option Nat :=
  match h.walk v path with
  | some (.ref a) => some a
  | _ => none

def edit (e : Edit) (name : String) (x : Val) (h : Heap) (v : Val) (path : List String) : Option Heap := do
  let a ← h.target v path
  let c ← h.cell? a
  let edited ← e.apply name x c.node
  return h.write a edited.toCell

def change (e : Edit) (x : Val) (h : Heap) (v : Val) (tokens : List String) : Option (Heap × Val) :=
  match place tokens with
  | none => some (h, x)
  | some (path, name) => (edit e name x h v path).map (·, v)

def string? : Val → Option String
  | .prim (.string s) => some s
  | _ => none

/-- The operations of a patch, with their values as they stand in the heap. -/
def operations (h : Heap) : Val → List (Operation Val)
  | .ref a => match h.cell? a with
    | some (.array elems) => elems.map fun op => .ofChild (h.child op) string?
    | _ => []
  | _ => []

abbrev Applied := Heap × Option Val

def orFail (h : Heap) : Option (Heap × Val) → Applied
  | some (h', v) => (h', some v)
  | none => (h, none)

def moveTo (h : Heap) (v x : Val) (source target : List String) : Applied :=
  if target = [] then (h, some x)
  else if source = [] then (h, none)
  else match change .remove (.prim .null) h v source with
    | none => (h, none)
    | some (h, v) => orFail h (change .insert x h v target)

/-- `applyOperation`: add and replace put the value of the operation itself into the document, copy puts
    a clone. -/
def applyOperation (h : Heap) (v : Val) : Operation Val → Applied
  | .add path x => orFail h do
    let target ← pointer path
    change .insert x h v target
  | .remove path => orFail h do
    let target ← pointer path
    change .remove (.prim .null) h v target
  | .replace path x => orFail h do
    let target ← pointer path
    change .replace x h v target
  | .move source path =>
    match pointer source, pointer path with
    | some source, some target => match h.walk v source with
      | some x => moveTo h v x source target
      | none => (h, none)
    | _, _ => (h, none)
  | .copy source path => orFail h do
    let source ← pointer source
    let target ← pointer path
    let x ← h.walk v source
    let (h, x) ← h.deepClone x
    change .insert x h v target
  | .test path x => orFail h do
    let target ← pointer path
    let y ← h.walk v target
    let y ← h.document y
    let x ← h.document x
    if y.alike x then some (h, v) else none
  | .invalid => (h, none)

/-- `applyPatch`: the operations up to the first that fails. -/
def applyOperations (h : Heap) (v : Val) : List (Operation Val) → Applied
  | [] => (h, some v)
  | op :: rest => match applyOperation h v op with
    | (h, some v) => applyOperations h v rest
    | (h, none) => (h, none)

def applyPatch (h : Heap) (v patch : Val) : Applied := applyOperations h v (h.operations patch)

def changed (h : Heap) (v : Val) (tokens : List String) : Option Nat :=
  (place tokens).bind fun place => h.target v place.1

def written (h : Heap) (v : Val) : Operation Val → List Nat
  | .add path _ | .remove path | .replace path _ | .copy _ path =>
    ((pointer path).bind (h.changed v)).toList
  | .move source path => match pointer source, pointer path with
    | some source, some target =>
      if target = [] then []
      else (h.changed v source).toList ++ match change .remove (.prim .null) h v source with
        | some (h', v') => (h'.changed v' target).toList
        | none => []
    | _, _ => []
  | .test _ _ | .invalid => []

/-- No operation of a patch changes one of these cells. -/
def Spares (cells : Nat → Prop) (h : Heap) (v : Val) : List (Operation Val) → Prop
  | [] => True
  | op :: rest => (∀ a ∈ h.written v op, ¬ cells a) ∧
    ∀ h' v', h.applyOperation v op = (h', some v') → Spares cells h' v' rest

end Heap

end Js
