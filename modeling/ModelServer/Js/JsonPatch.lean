import ModelServer.Js.Edit
import ModelServer.Js.Document

namespace Js

def unescape : List Char → List Char
  | '~' :: '1' :: cs => '/' :: unescape cs
  | '~' :: '0' :: cs => '~' :: unescape cs
  | c :: cs => c :: unescape cs
  | [] => []

def splitAt (separator : Char) : List Char → List (List Char)
  | [] => [[]]
  | c :: cs =>
    if c = separator then [] :: splitAt separator cs
    else match splitAt separator cs with
      | [] => [[c]]
      | token :: rest => (c :: token) :: rest

def pointer (path : String) : Option (List String) :=
  match path.toList with
  | [] => some []
  | c :: cs => if c = '/' then some ((splitAt '/' cs).map fun token => String.ofList (unescape token)) else none

/-- The node that a pointer leads to and the name of the place in it; none for the whole document. -/
def place (tokens : List String) : Option (List String × String) :=
  tokens.getLast?.map fun name => (tokens.dropLast, name)

inductive Operation (α : Type)
  | add (path : String) (value : α)
  | remove (path : String)
  | replace (path : String) (value : α)
  | move (source path : String)
  | copy (source path : String)
  | test (path : String) (value : α)
  | invalid

namespace Operation

variable {α β : Type}

def ofChild (child : String → Option α) (string? : α → Option String) : Operation α :=
  match (child "op").bind string?, (child "path").bind string? with
  | some op, some path =>
    if op = "remove" then remove path
    else if op = "add" then ((child "value").map (add path)).getD invalid
    else if op = "replace" then ((child "value").map (replace path)).getD invalid
    else if op = "test" then ((child "value").map (test path)).getD invalid
    else if op = "move" then (((child "from").bind string?).map (move · path)).getD invalid
    else if op = "copy" then (((child "from").bind string?).map (copy · path)).getD invalid
    else invalid
  | _, _ => invalid

inductive Rel (R : α → β → Prop) : Operation α → Operation β → Prop
  | add {path : String} {x : α} {y : β} (related : R x y) : Rel R (.add path x) (.add path y)
  | remove {path : String} : Rel R (.remove path) (.remove path)
  | replace {path : String} {x : α} {y : β} (related : R x y) : Rel R (.replace path x) (.replace path y)
  | move {source path : String} : Rel R (.move source path) (.move source path)
  | copy {source path : String} : Rel R (.copy source path) (.copy source path)
  | test {path : String} {x : α} {y : β} (related : R x y) : Rel R (.test path x) (.test path y)
  | invalid : Rel R .invalid .invalid

theorem Rel.mono {R R' : α → β → Prop} (weaker : ∀ x y, R x y → R' x y) {op : Operation α} {op' : Operation β}
    (h : Rel R op op') : Rel R' op op' := by
  cases h with
  | add related => exact .add (weaker _ _ related)
  | remove => exact .remove
  | replace related => exact .replace (weaker _ _ related)
  | move => exact .move
  | copy => exact .copy
  | test related => exact .test (weaker _ _ related)
  | invalid => exact .invalid

theorem ofChild_rel {R : α → β → Prop} {child : String → Option α} {below : String → Option β}
    {string? : α → Option String} {text? : β → Option String} (value : Option.Rel R (child "value") (below "value"))
    (strings : ∀ key, (child key).bind string? = (below key).bind text?) :
    Rel R (ofChild child string?) (ofChild below text?) := by
  have valued : ∀ {make : α → Operation α} {make' : β → Operation β}, (∀ x y, R x y → Rel R (make x) (make' y)) →
      Rel R (((child "value").map make).getD invalid) (((below "value").map make').getD invalid) := by
    intro make make' each
    revert value
    cases child "value" <;> cases below "value" <;> intro value
    · exact .invalid
    · cases value
    · cases value
    · cases value with
      | some related => exact each _ _ related
  unfold ofChild
  rw [strings "op", strings "path", strings "from"]
  cases (below "op").bind text? with
  | none => exact .invalid
  | some op =>
    cases (below "path").bind text? with
    | none => exact .invalid
    | some path =>
      dsimp only
      split_ifs
      · exact .remove
      · exact valued fun _ _ => .add
      · exact valued fun _ _ => .replace
      · exact valued fun _ _ => .test
      · cases (below "from").bind text? with
        | none => exact .invalid
        | some source => exact .move
      · cases (below "from").bind text? with
        | none => exact .invalid
        | some source => exact .copy
      · exact .invalid

end Operation

namespace Json

def string? : Json → Option String
  | prim (.string s) => some s
  | _ => none

def node? : Json → Option (Node Json)
  | prim _ => none
  | arr elems => some (.array elems)
  | obj props => some (.object props)

end Json

def Node.toJson : Node Json → Json
  | .array elems => .arr elems
  | .object props => .obj props

namespace Json

def edit (e : Edit) (name : String) (x : Json) : Json → List String → Option Json
  | j, [] => do
    let node ← j.node?
    let edited ← e.apply name x node
    return edited.toJson
  | j, key :: path => do
    let node ← j.node?
    let c ← node.child key
    let c ← edit e name x c path
    let edited ← Edit.replace.apply key c node
    return edited.toJson

/-- An edit of the place that the tokens lead to. The whole document is put in its place, or becomes null. -/
def change (e : Edit) (x j : Json) (tokens : List String) : Option Json :=
  match place tokens with
  | none => some x
  | some (path, name) => edit e name x j path

def operations : Json → List (Operation Json)
  | arr elems => elems.map fun op => .ofChild op.child string?
  | _ => []

end Json

/-- The document after an operation of RFC 6902, if it can be applied. -/
def Operation.apply : Operation Json → Json → Option Json
  | add path x, j => do
    let target ← pointer path
    Json.change .insert x j target
  | remove path, j => do
    let target ← pointer path
    Json.change .remove (.prim .null) j target
  | replace path x, j => do
    let target ← pointer path
    Json.change .replace x j target
  | move source path, j => do
    let source ← pointer source
    let target ← pointer path
    let x ← j.at? source
    if target = [] then some x
    else if source = [] then none
    else do
      let j ← Json.change .remove (.prim .null) j source
      Json.change .insert x j target
  | copy source path, j => do
    let source ← pointer source
    let target ← pointer path
    let x ← j.at? source
    Json.change .insert x j target
  | test path x, j => do
    let target ← pointer path
    let y ← j.at? target
    if y.alike x then some j else none
  | invalid, _ => none

def Json.patched (j : Json) : List (Operation Json) → Option Json
  | [] => some j
  | op :: rest => do
    let j ← op.apply j
    j.patched rest

end Js
