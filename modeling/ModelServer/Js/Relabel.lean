import ModelServer.Js.JsonPatch
import Mathlib.Data.List.InsertIdx
import Mathlib.Logic.Equiv.Defs

namespace Js

variable {σ : Equiv.Perm String}

section Entries

variable {α β : Type}

def relabelEntries (σ : Equiv.Perm String) (f : α → β) (props : List (String × α)) : List (String × β) :=
  props.map fun entry => (σ entry.1, f entry.2)

theorem lookup_relabel (f : α → β) (props : List (String × α)) (key : String) :
    (relabelEntries σ f props).lookup (σ key) = (props.lookup key).map f := by
  induction props with
  | nil => rfl
  | cons entry rest ih =>
    rcases entry with ⟨name, value⟩
    simp only [relabelEntries, List.map_cons, lookup_entry, EmbeddingLike.apply_eq_iff_eq] at ih ⊢
    split
    · rfl
    · exact ih

theorem put_relabel (f : α → β) (props : List (String × α)) (key : String) (x : α) :
    put (σ key) (f x) (relabelEntries σ f props) = relabelEntries σ f (put key x props) := by
  induction props with
  | nil => rfl
  | cons entry rest ih =>
    rcases entry with ⟨name, value⟩
    simp only [relabelEntries, List.map_cons, put, EmbeddingLike.apply_eq_iff_eq] at ih ⊢
    split
    · rfl
    · rw [ih, List.map_cons]

theorem remove_relabel (f : α → β) (props : List (String × α)) (key : String) :
    remove (σ key) (relabelEntries σ f props) = relabelEntries σ f (remove key props) := by
  simp only [remove, relabelEntries, List.filter_map]
  congr 1
  apply List.filter_congr
  intro entry _
  simp

end Entries

namespace Json

mutual

/-- The document with every key of an object replaced. -/
def relabel (σ : Equiv.Perm String) : Json → Json
  | prim p => prim p
  | arr elems => arr (relabelElems σ elems)
  | obj props => obj (relabelProps σ props)

def relabelElems (σ : Equiv.Perm String) : List Json → List Json
  | [] => []
  | e :: rest => relabel σ e :: relabelElems σ rest

def relabelProps (σ : Equiv.Perm String) : List (String × Json) → List (String × Json)
  | [] => []
  | (name, value) :: rest => (σ name, relabel σ value) :: relabelProps σ rest

end

theorem relabelElems_eq (σ : Equiv.Perm String) (elems : List Json) : relabelElems σ elems = elems.map (relabel σ) := by
  induction elems with
  | nil => rfl
  | cons e rest ih => rw [relabelElems, ih, List.map_cons]

theorem relabelProps_eq (σ : Equiv.Perm String) (props : List (String × Json)) :
    relabelProps σ props = relabelEntries σ (relabel σ) props := by
  induction props with
  | nil => rfl
  | cons entry rest ih => rw [relabelProps, ih, relabelEntries, relabelEntries, List.map_cons]

theorem shape_relabel (σ : Equiv.Perm String) (j : Json) : (j.relabel σ).shape = j.shape := by
  cases j with
  | prim p => rfl
  | arr elems => simp [relabel, relabelElems_eq, shape]
  | obj props => rfl

theorem child_eq_node (j : Json) (key : String) : j.child key = j.node?.bind (·.child key) := by
  cases j <;> rfl

end Json

namespace Node

def relabel (σ : Equiv.Perm String) : Node Json → Node Json
  | object props => object (relabelEntries σ (Json.relabel σ) props)
  | array elems => array (elems.map (Json.relabel σ))

theorem toJson_relabel (σ : Equiv.Perm String) (n : Node Json) : (n.relabel σ).toJson = n.toJson.relabel σ := by
  cases n with
  | object props => rw [relabel, toJson, toJson, Json.relabel, Json.relabelProps_eq]
  | array elems => rw [relabel, toJson, toJson, Json.relabel, Json.relabelElems_eq]

theorem child_relabel {key : String} (fixed : σ key = key) (n : Node Json) :
    (n.relabel σ).child key = (n.child key).map (Json.relabel σ) := by
  cases n with
  | object props =>
    have found := lookup_relabel (σ := σ) (Json.relabel σ) props key
    rwa [fixed] at found
  | array elems =>
    simp only [relabel, child]
    cases indexOf? key with
    | none => rfl
    | some i => simp

end Node

theorem Edit.apply_relabel (e : Edit) {name : String} (fixed : σ name = name) (x : Json) (n : Node Json) :
    e.apply name (x.relabel σ) (n.relabel σ) = (e.apply name x n).map (Node.relabel σ) := by
  cases n with
  | object props =>
    have found := lookup_relabel (σ := σ) (Json.relabel σ) props name
    have added := put_relabel (σ := σ) (Json.relabel σ) props name x
    have removed := remove_relabel (σ := σ) (Json.relabel σ) props name
    rw [fixed] at found added removed
    simp only [Node.relabel, apply, found, added, removed, Option.isSome_map]
    cases e
    · rfl
    · simp only
      split <;> rfl
    · simp only
      split <;> rfl
  | array elems =>
    simp only [Node.relabel, apply, List.length_map]
    cases e
    · simp only [Option.map_map]
      congr 1
      funext i
      simp [Node.relabel, List.map_insertIdx]
    · simp only [Option.map_map]
      congr 1
      funext i
      simp [Node.relabel, List.eraseIdx_map]
    · simp only [Option.map_map]
      congr 1
      funext i
      simp [Node.relabel, List.map_set]

namespace Json

theorem node_relabel (σ : Equiv.Perm String) (j : Json) : (j.relabel σ).node? = j.node?.map (Node.relabel σ) := by
  cases j with
  | prim p => rfl
  | arr elems => rw [relabel, relabelElems_eq, node?, node?, Option.map_some, Node.relabel]
  | obj props => rw [relabel, relabelProps_eq, node?, node?, Option.map_some, Node.relabel]

theorem child_relabel {key : String} (fixed : σ key = key) (j : Json) :
    (j.relabel σ).child key = (j.child key).map (relabel σ) := by
  rw [child_eq_node, child_eq_node, node_relabel]
  cases j.node? with
  | none => rfl
  | some n => exact n.child_relabel fixed

theorem child_relabel_arr (elems : List Json) (key : String) :
    ((arr elems).relabel σ).child key = ((arr elems).child key).map (relabel σ) := by
  rw [relabel, relabelElems_eq, child, child]
  cases indexOf? key with
  | none => rfl
  | some i => simp

theorem child_relabel_obj (props : List (String × Json)) (key : String) :
    ((obj props).relabel σ).child key = ((obj props).child (σ.symm key)).map (relabel σ) := by
  have found := lookup_relabel (σ := σ) (relabel σ) props (σ.symm key)
  rw [Equiv.apply_symm_apply] at found
  rw [relabel, relabelProps_eq]
  exact found

theorem at_relabel {path : List String} (fixed : ∀ key ∈ path, σ key = key) (j : Json) :
    (j.relabel σ).at? path = (j.at? path).map (relabel σ) := by
  induction path generalizing j with
  | nil => rfl
  | cons key path ih =>
    rcases List.forall_mem_cons.mp fixed with ⟨here, later⟩
    rw [at?, at?, child_relabel here]
    cases j.child key with
    | none => rfl
    | some c => exact ih later c

theorem edit_relabel (e : Edit) {name : String} (last : σ name = name) (x : Json) {path : List String}
    (fixed : ∀ key ∈ path, σ key = key) (j : Json) :
    edit e name (x.relabel σ) (j.relabel σ) path = (edit e name x j path).map (relabel σ) := by
  induction path generalizing j with
  | nil =>
    rw [edit, edit, node_relabel]
    cases j.node? with
    | none => rfl
    | some n =>
      simp only [Option.map_some, Option.bind_eq_bind, Option.bind_some, e.apply_relabel last]
      cases e.apply name x n with
      | none => rfl
      | some n' => exact congrArg some (n'.toJson_relabel σ)
  | cons key path ih =>
    rcases List.forall_mem_cons.mp fixed with ⟨here, later⟩
    rw [edit, edit, node_relabel]
    cases j.node? with
    | none => rfl
    | some n =>
      simp only [Option.map_some, Option.bind_eq_bind, Option.bind_some, n.child_relabel here]
      cases n.child key with
      | none => rfl
      | some c =>
        simp only [Option.map_some, Option.bind_some, ih later c]
        cases edit e name x c path with
        | none => rfl
        | some c' =>
          simp only [Option.map_some, Option.bind_some, Edit.replace.apply_relabel here]
          cases Edit.replace.apply key c' n with
          | none => rfl
          | some n' => exact congrArg some (n'.toJson_relabel σ)

theorem change_relabel (e : Edit) (x : Json) {tokens : List String} (fixed : ∀ key ∈ tokens, σ key = key) (j : Json) :
    change e (x.relabel σ) (j.relabel σ) tokens = (change e x j tokens).map (relabel σ) := by
  unfold change place
  rcases List.eq_nil_or_concat tokens with rfl | ⟨path, name, rfl⟩
  · rfl
  · have last : σ name = name := fixed name (by simp)
    simpa using edit_relabel e last x (fun key member => fixed key (by simp [member])) j

theorem same_relabel {a b : Json} (same : a.Same b) : (a.relabel σ).Same (b.relabel σ) := by
  induction a using child_induct generalizing b with
  | step a ih =>
  refine same_of_children (by rw [shape_relabel, shape_relabel, same.shape]) fun key => ?_
  have shape := same.shape
  have below : ∀ key, Option.Rel Same ((a.child key).map (relabel σ)) ((b.child key).map (relabel σ)) := by
    intro key
    have related := same.child key
    revert related
    cases found : a.child key <;> cases b.child key <;> intro related
    · exact .none
    · cases related
    · cases related
    · cases related with
      | some same => exact .some (ih key _ found same)
  cases a with
  | prim p =>
    cases b with
    | prim q => exact .none
    | arr elems => cases shape
    | obj props => cases shape
  | arr elems =>
    cases b with
    | prim q => cases shape
    | obj props => cases shape
    | arr elems' =>
      rw [child_relabel_arr, child_relabel_arr]
      exact below key
  | obj props =>
    cases b with
    | prim q => cases shape
    | arr elems => cases shape
    | obj props' =>
      rw [child_relabel_obj, child_relabel_obj]
      exact below (σ.symm key)

theorem relabel_symm (j : Json) : (j.relabel σ).relabel σ.symm = j := by
  induction j using induct with
  | prim p => rfl
  | arr elems ih =>
    rw [relabel, relabelElems_eq, relabel, relabelElems_eq, List.map_map]
    congr 1
    conv_rhs => rw [← List.map_id elems]
    exact List.map_congr_left ih
  | obj props ih =>
    rw [relabel, relabelProps_eq, relabel, relabelProps_eq, relabelEntries, relabelEntries, List.map_map]
    congr 1
    conv_rhs => rw [← List.map_id props]
    apply List.map_congr_left
    intro entry member
    simp [ih entry member]

theorem same_relabel_iff (a b : Json) : (a.relabel σ).Same (b.relabel σ) ↔ a.Same b := by
  constructor
  · intro same
    have back := same_relabel (σ := σ.symm) same
    rwa [relabel_symm, relabel_symm] at back
  · exact same_relabel

theorem alike_relabel (a b : Json) : (a.relabel σ).alike (b.relabel σ) = a.alike b := by
  rw [Bool.eq_iff_iff, alike_iff, alike_iff, same_relabel_iff]

end Json

namespace Operation

def map {α β : Type} (f : α → β) : Operation α → Operation β
  | add path value => add path (f value)
  | remove path => remove path
  | replace path value => replace path (f value)
  | move source path => move source path
  | copy source path => copy source path
  | test path value => test path (f value)
  | invalid => invalid

def pointers {α : Type} : Operation α → List String
  | add path _ | remove path | replace path _ | test path _ => [path]
  | move source path | copy source path => [source, path]
  | invalid => []

def tokens {α : Type} (op : Operation α) : List String := op.pointers.flatMap fun path => (pointer path).getD []

theorem mem_tokens {α : Type} {op : Operation α} {path token : String} {names : List String} (member : path ∈ op.pointers)
    (target : pointer path = some names) (inside : token ∈ names) : token ∈ op.tokens :=
  List.mem_flatMap.mpr ⟨path, member, by rwa [target]⟩

theorem apply_relabel {op : Operation Json} (fixed : ∀ token ∈ op.tokens, σ token = token) (j : Json) :
    (op.map (Json.relabel σ)).apply (j.relabel σ) = (op.apply j).map (Json.relabel σ) := by
  have names : ∀ path ∈ op.pointers, ∀ tokens, pointer path = some tokens → ∀ token ∈ tokens, σ token = token :=
    fun path member tokens target token inside => fixed token (mem_tokens member target inside)
  cases op with
  | add path x =>
    simp only [map, apply, Option.bind_eq_bind]
    cases target : pointer path with
    | none => rfl
    | some tokens => exact Json.change_relabel .insert x (names path (by simp [pointers]) tokens target) j
  | remove path =>
    simp only [map, apply, Option.bind_eq_bind]
    cases target : pointer path with
    | none => rfl
    | some tokens => exact Json.change_relabel .remove (.prim .null) (names path (by simp [pointers]) tokens target) j
  | replace path x =>
    simp only [map, apply, Option.bind_eq_bind]
    cases target : pointer path with
    | none => rfl
    | some tokens => exact Json.change_relabel .replace x (names path (by simp [pointers]) tokens target) j
  | test path x =>
    simp only [map, apply, Option.bind_eq_bind]
    cases target : pointer path with
    | none => rfl
    | some tokens =>
      simp only [Option.bind_some, Json.at_relabel (names path (by simp [pointers]) tokens target)]
      cases j.at? tokens with
      | none => rfl
      | some y =>
        simp only [Option.map_some, Option.bind_some, Json.alike_relabel]
        split <;> rfl
  | move source path =>
    simp only [map, apply, Option.bind_eq_bind]
    cases origin : pointer source with
    | none => rfl
    | some start =>
      cases target : pointer path with
      | none => rfl
      | some tokens =>
        have first := names source (by simp [pointers]) start origin
        have second := names path (by simp [pointers]) tokens target
        simp only [Option.bind_some, Json.at_relabel first]
        cases j.at? start with
        | none => rfl
        | some x =>
          simp only [Option.map_some, Option.bind_some]
          split
          · rfl
          · split
            · rfl
            · have removed := Json.change_relabel .remove (.prim .null) first j
              rw [Json.relabel] at removed
              rw [removed]
              cases Json.change .remove (.prim .null) j start with
              | none => rfl
              | some j' => exact Json.change_relabel .insert x second j'
  | copy source path =>
    simp only [map, apply, Option.bind_eq_bind]
    cases origin : pointer source with
    | none => rfl
    | some start =>
      cases target : pointer path with
      | none => rfl
      | some tokens =>
        simp only [Option.bind_some, Json.at_relabel (names source (by simp [pointers]) start origin)]
        cases j.at? start with
        | none => rfl
        | some x => exact Json.change_relabel .insert x (names path (by simp [pointers]) tokens target) j
  | invalid => rfl

end Operation

/-- Replacing the keys of a document commutes with every patch that goes through none of them. -/
theorem Json.patched_relabel {ops : List (Operation Json)} (fixed : ∀ op ∈ ops, ∀ token ∈ op.tokens, σ token = token)
    (j : Json) : (j.relabel σ).patched (ops.map (Operation.map (relabel σ))) = (j.patched ops).map (relabel σ) := by
  induction ops generalizing j with
  | nil => rfl
  | cons op rest ih =>
    rcases List.forall_mem_cons.mp fixed with ⟨here, later⟩
    rw [List.map_cons, patched, patched, Operation.apply_relabel here]
    cases op.apply j with
    | none => rfl
    | some j' => exact ih later j'

end Js
