import ModelServer.Js.Json
import Mathlib.Data.List.Induction

namespace Js

inductive Val
  | undefined
  | prim (p : Prim)
  | ref (a : Nat)
  deriving DecidableEq, Repr

inductive Cell
  | object (props : List (String × Val))
  | array (elems : List Val)
  deriving DecidableEq, Repr

namespace Cell

def child : Cell → String → Option Val
  | object props, name => props.lookup name
  | array elems, name => (indexOf? name).bind (elems[·]?)

def entries : Cell → List (String × Val)
  | object props => props
  | array elems => indexed elems

def ownNames : Cell → List String
  | object props => names props
  | array elems => (List.range elems.length).map indexName ++ ["length"]

def get (c : Cell) (name : String) : Val :=
  match c.child name, c with
  | some v, _ => v
  | none, array elems => if name = "length" then .prim (.number elems.length) else .undefined
  | none, object _ => .undefined

/-- The assignment `target[name] = v` to an own property other than the length of an array. -/
def assign : Cell → String → Val → Cell
  | object props, name, v => object (put name v props)
  | array elems, name, v =>
    match indexOf? name with
    | some i => array (elems.set i v)
    | none => array elems

def values : Cell → List Val
  | object props => props.map Prod.snd
  | array elems => elems

def references (c : Cell) : List Nat := c.values.filterMap fun v => match v with
  | .ref a => some a
  | _ => none

def shape : Cell → Shape
  | object _ => .obj
  | array elems => .arr elems.length

theorem lookup_entries (c : Cell) (name : String) : c.entries.lookup name = c.child name := by
  cases c with
  | object props => rfl
  | array elems => exact lookup_indexed elems name

theorem mem_ownNames_of_child {c : Cell} {name : String} {v : Val} (h : c.child name = some v) :
    name ∈ c.ownNames := by
  cases c with
  | object props =>
    simp only [child] at h
    simp [ownNames, mem_names, h]
  | array elems =>
    simp only [child] at h
    cases at_name : indexOf? name with
    | none => simp [at_name] at h
    | some i =>
      simp only [at_name, Option.bind_some] at h
      have bound := (List.getElem?_eq_some_iff.mp h).1
      simp only [ownNames, List.mem_append, List.mem_map, List.mem_range]
      exact .inl ⟨i, bound, indexName_of_indexOf at_name⟩

theorem mem_values_of_child {c : Cell} {name : String} {v : Val} (h : c.child name = some v) : v ∈ c.values := by
  cases c with
  | object props => exact List.mem_map.mpr ⟨(name, v), mem_of_lookup h, rfl⟩
  | array elems =>
    simp only [child] at h
    cases at_name : indexOf? name with
    | none => simp [at_name] at h
    | some i =>
      simp only [at_name, Option.bind_some] at h
      exact List.mem_of_getElem? h

theorem mem_references_of_child {c : Cell} {name : String} {a : Nat} (h : c.child name = some (.ref a)) :
    a ∈ c.references :=
  List.mem_filterMap.mpr ⟨.ref a, mem_values_of_child h, rfl⟩

theorem get_of_child {c : Cell} {name : String} {v : Val} (h : c.child name = some v) : c.get name = v := by
  simp [get, h]

theorem child_of_get {c : Cell} {name : String} {v : Val} (h : c.get name = v) (defined : v ≠ .undefined)
    (length : ∀ n, v ≠ .prim (.number n)) : c.child name = some v := by
  unfold get at h
  split at h
  · rename_i found
    rw [found, h]
  · split at h
    · exact absurd h.symm (length _)
    · exact absurd h.symm defined
  · exact absurd h.symm defined

end Cell

/-- The objects and arrays of a run, by allocation order. -/
structure Heap where
  cells : List Cell
  deriving DecidableEq, Repr

namespace Heap

def size (h : Heap) : Nat := h.cells.length

def cell? (h : Heap) (a : Nat) : Option Cell := h.cells[a]?

def alloc (h : Heap) (c : Cell) : Heap × Nat := (⟨h.cells ++ [c]⟩, h.size)

def write (h : Heap) (a : Nat) (c : Cell) : Heap := ⟨h.cells.set a c⟩

@[simp] theorem alloc_snd (h : Heap) (c : Cell) : (h.alloc c).2 = h.size := rfl

@[simp] theorem size_alloc (h : Heap) (c : Cell) : (h.alloc c).1.size = h.size + 1 := by
  simp [alloc, size]

@[simp] theorem size_write (h : Heap) (a : Nat) (c : Cell) : (h.write a c).size = h.size := by
  simp [write, size]

theorem cell_bound {h : Heap} {a : Nat} {c : Cell} (found : h.cell? a = some c) : a < h.size :=
  (List.getElem?_eq_some_iff.mp found).1

theorem cell_exists {h : Heap} {a : Nat} (bound : a < h.size) : ∃ c, h.cell? a = some c :=
  ⟨_, List.getElem?_eq_getElem bound⟩

theorem cell_alloc (h : Heap) (c : Cell) (a : Nat) :
    (h.alloc c).1.cell? a = if a = h.size then some c else h.cell? a := by
  simp only [alloc, cell?, size, List.getElem?_append]
  rcases Nat.lt_trichotomy a h.cells.length with below | here | above
  · simp [below, Nat.ne_of_lt below]
  · simp [here]
  · have beyond : a - h.cells.length ≠ 0 := by omega
    simp [Nat.not_lt_of_gt above, Nat.ne_of_gt above, beyond]

theorem cell_alloc_old (h : Heap) (c : Cell) {a : Nat} (bound : a < h.size) :
    (h.alloc c).1.cell? a = h.cell? a := by
  rw [cell_alloc, if_neg (Nat.ne_of_lt bound)]

theorem cell_write (h : Heap) (a b : Nat) (c : Cell) (bound : a < h.size) :
    (h.write a c).cell? b = if b = a then some c else h.cell? b := by
  by_cases here : b = a
  · subst here
    simp only [write, cell?, if_true]
    exact List.getElem?_set_self bound
  · simp only [write, cell?, here, if_false]
    exact List.getElem?_set_ne (Ne.symm here)

theorem cell_write_other (h : Heap) {a b : Nat} (c : Cell) (other : b ≠ a) :
    (h.write a c).cell? b = h.cell? b := List.getElem?_set_ne (Ne.symm other)

def child (h : Heap) : Val → String → Option Val
  | .ref a, name => (h.cell? a).bind (·.child name)
  | _, _ => none

def shape (h : Heap) : Val → Shape
  | .undefined => .undefined
  | .prim p => .prim p
  | .ref a => ((h.cell? a).map Cell.shape).getD .undefined

def walk (h : Heap) : Val → List String → Option Val
  | v, [] => some v
  | v, name :: path => (h.child v name).bind (h.walk · path)

def shapeAt (h : Heap) (v : Val) (path : List String) : Option Shape := (h.walk v path).map h.shape

/-- The value reads, from any path, as the document does. Sharing within the heap does not show. -/
def Denotes (h : Heap) (v : Val) (j : Json) : Prop := ∀ path, h.shapeAt v path = j.shapeAt path

inductive Reaches (h : Heap) (root : Val) : Val → Prop
  | root : Reaches h root root
  | child {v w : Val} {name : String} (previous : Reaches h root v) (edge : h.child v name = some w) :
      Reaches h root w

def Complete (h : Heap) : Prop := ∀ c ∈ h.cells, ∀ b ∈ c.references, b < h.size

instance (h : Heap) : Decidable h.Complete :=
  inferInstanceAs (Decidable (∀ c ∈ h.cells, ∀ b ∈ c.references, b < h.size))

theorem Complete.child_bound {h : Heap} (complete : h.Complete) {v : Val} {name : String} {b : Nat}
    (edge : h.child v name = some (.ref b)) : b < h.size := by
  cases v with
  | undefined => cases edge
  | prim p => cases edge
  | ref a =>
    simp only [child, Option.bind_eq_some_iff] at edge
    rcases edge with ⟨c, found, child⟩
    exact complete c (List.mem_of_getElem? found) b (Cell.mem_references_of_child child)

def Live (h : Heap) (root : Val) : Prop := ∀ a, h.Reaches root (.ref a) → a < h.size

theorem Complete.live {h : Heap} (complete : h.Complete) {a : Nat} (bound : a < h.size) : h.Live (.ref a) := by
  suffices all : ∀ v, h.Reaches (.ref a) v → ∀ b, v = .ref b → b < h.size from fun b reached => all _ reached b rfl
  intro v reached
  induction reached with
  | root =>
    intro b same
    cases same
    exact bound
  | child previous edge ih =>
    intro b same
    subst same
    exact complete.child_bound edge

theorem Reaches.trans {h : Heap} {u v w : Val} (first : h.Reaches u v) (second : h.Reaches v w) : h.Reaches u w := by
  induction second with
  | root => exact first
  | child _ edge ih => exact .child ih edge

@[simp] theorem child_ref (h : Heap) (a : Nat) (name : String) :
    h.child (.ref a) name = (h.cell? a).bind (·.child name) := rfl

@[simp] theorem shapeAt_nil (h : Heap) (v : Val) : h.shapeAt v [] = some (h.shape v) := rfl

theorem shapeAt_cons (h : Heap) (v : Val) (name : String) (path : List String) :
    h.shapeAt v (name :: path) = (h.child v name).bind (h.shapeAt · path) := by
  simp only [shapeAt, walk]
  cases h.child v name <;> rfl

theorem walk_append (h : Heap) (v : Val) (path rest : List String) :
    h.walk v (path ++ rest) = (h.walk v path).bind (h.walk · rest) := by
  induction path generalizing v with
  | nil => rfl
  | cons name path ih =>
    simp only [List.cons_append, walk]
    cases h.child v name with
    | none => rfl
    | some w => exact ih w

theorem reaches_iff_walk (h : Heap) (root v : Val) : h.Reaches root v ↔ ∃ path, h.walk root path = some v := by
  constructor
  · intro reached
    induction reached with
    | root => exact ⟨[], rfl⟩
    | @child v w name _ edge ih =>
      obtain ⟨path, walked⟩ := ih
      exact ⟨path ++ [name], by simp [walk_append, walked, walk, edge]⟩
  · intro given
    rcases given with ⟨path, walked⟩
    induction path using List.reverseRecOn generalizing v with
    | nil =>
      cases walked
      exact .root
    | append_singleton path name ih =>
      simp only [walk_append] at walked
      cases before : h.walk root path with
      | none => simp [before] at walked
      | some w =>
        simp only [before, Option.bind_some, walk] at walked
        cases edge : h.child w name with
        | none => simp [edge] at walked
        | some x =>
          simp only [edge, Option.bind_some, Option.some.injEq] at walked
          subst walked
          exact .child (ih w before) edge

theorem denotes_of_children {h : Heap} {v : Val} {j : Json} (shape : h.shape v = j.shape)
    (children : ∀ name, Option.Rel h.Denotes (h.child v name) (j.child name)) : h.Denotes v j := by
  intro path
  cases path with
  | nil => simp [shape]
  | cons name path =>
    simp only [shapeAt_cons, Json.shapeAt_cons]
    have related := children name
    revert related
    cases h.child v name <;> cases j.child name <;> intro related
    · rfl
    · cases related
    · cases related
    · cases related with
      | some denotes => exact denotes path

theorem denotes_prim (h : Heap) (p : Prim) : h.Denotes (.prim p) (.prim p) :=
  denotes_of_children rfl fun _ => .none

namespace Denotes

variable {h : Heap} {v w : Val} {j : Json} {name : String}

theorem shape (d : h.Denotes v j) : h.shape v = j.shape := by simpa using d []

theorem same {j' : Json} (d : h.Denotes v j) (d' : h.Denotes v j') : j.Same j' :=
  fun path => (d path).symm.trans (d' path)

theorem of_same {j' : Json} (d : h.Denotes v j) (s : j.Same j') : h.Denotes v j' :=
  fun path => (d path).trans (s path)

theorem child (d : h.Denotes v j) (edge : h.child v name = some w) :
    ∃ c, j.child name = some c ∧ h.Denotes w c := by
  have at_name := fun path => d (name :: path)
  simp only [shapeAt_cons, Json.shapeAt_cons, edge, Option.bind_some] at at_name
  cases found : j.child name with
  | none => simpa [found] using at_name []
  | some c => exact ⟨c, rfl, fun path => by simpa [found] using at_name path⟩

theorem live {a : Nat} (d : h.Denotes (.ref a) j) : ∃ c, h.cell? a = some c ∧ c.shape = j.shape := by
  have read := d.shape
  simp only [Heap.shape] at read
  cases found : h.cell? a with
  | none => cases j <;> simp [found, Json.shape] at read
  | some c => exact ⟨c, rfl, by simpa [found] using read⟩

theorem reaches {root : Val} (d : h.Denotes root j) (reached : h.Reaches root v) :
    ∃ path c, j.at? path = some c ∧ h.walk root path = some v ∧ h.Denotes v c := by
  induction reached with
  | root => exact ⟨[], j, rfl, rfl, d⟩
  | @child x w name _ edge ih =>
    obtain ⟨path, c, found, walked, denotes⟩ := ih
    obtain ⟨c', at_name, below⟩ := denotes.child edge
    exact ⟨path ++ [name], c', by simp [Json.at_append, found, Json.at?, at_name],
      by simp [walk_append, walked, Heap.walk, edge], below⟩

theorem of_child {c : Json} (d : h.Denotes v j) (found : j.child name = some c) :
    ∃ w, h.child v name = some w ∧ h.Denotes w c := by
  have at_name := fun path => d (name :: path)
  simp only [shapeAt_cons, Json.shapeAt_cons, found, Option.bind_some] at at_name
  cases edge : h.child v name with
  | none => simpa [edge] using at_name []
  | some w => exact ⟨w, rfl, fun path => by simpa [edge] using at_name path⟩

theorem children (d : h.Denotes v j) (name : String) : Option.Rel h.Denotes (h.child v name) (j.child name) := by
  cases edge : h.child v name with
  | none =>
    cases found : j.child name with
    | none => exact .none
    | some c =>
      obtain ⟨w, edge', -⟩ := d.of_child found
      cases edge.symm.trans edge'
  | some w =>
    obtain ⟨c, found, denotes⟩ := d.child edge
    rw [found]
    exact .some denotes

theorem eq_prim {p : Prim} (d : h.Denotes v (.prim p)) : v = .prim p := by
  cases v with
  | undefined => cases d.shape
  | prim q => exact congrArg Val.prim (Shape.prim.inj d.shape)
  | ref a =>
    obtain ⟨c, -, shape⟩ := d.live
    cases c <;> cases shape

theorem of_arr {elems : List Json} (d : h.Denotes v (.arr elems)) :
    ∃ a vs, v = .ref a ∧ h.cell? a = some (.array vs) ∧ vs.length = elems.length := by
  cases v with
  | undefined => cases d.shape
  | prim q => cases d.shape
  | ref a =>
    obtain ⟨c, found, shape⟩ := d.live
    cases c with
    | object props => cases shape
    | array vs => exact ⟨a, vs, rfl, found, Shape.arr.inj shape⟩

theorem of_obj {props : List (String × Json)} (d : h.Denotes v (.obj props)) :
    ∃ a ps, v = .ref a ∧ h.cell? a = some (.object ps) := by
  cases v with
  | undefined => cases d.shape
  | prim q => cases d.shape
  | ref a =>
    obtain ⟨c, found, shape⟩ := d.live
    cases c with
    | object ps => exact ⟨a, ps, rfl, found⟩
    | array vs => cases shape

theorem walk {path : List String} {c : Json} (d : h.Denotes v j) (found : j.at? path = some c) :
    ∃ w, h.walk v path = some w ∧ h.Denotes w c := by
  induction path generalizing v j with
  | nil =>
    cases found
    exact ⟨v, rfl, d⟩
  | cons name path ih =>
    simp only [Json.at?] at found
    cases first : j.child name with
    | none => simp [first] at found
    | some d' =>
      obtain ⟨w, edge, denotes⟩ := d.of_child first
      obtain ⟨x, walked, rest⟩ := ih denotes (by simpa [first] using found)
      exact ⟨x, by simp [Heap.walk, edge, walked], rest⟩

end Denotes

theorem walk_congr {h h' : Heap} {v : Val} (same : ∀ a, h.Reaches v (.ref a) → h'.cell? a = h.cell? a)
    (path : List String) : h'.walk v path = h.walk v path := by
  induction path generalizing v with
  | nil => rfl
  | cons name path ih =>
    have step : h'.child v name = h.child v name := by
      cases v with
      | ref a => simp only [child_ref, same a .root]
      | undefined => rfl
      | prim p => rfl
    simp only [walk, step]
    cases edge : h.child v name with
    | none => rfl
    | some w =>
      apply ih
      intro a reached
      obtain ⟨rest, walked⟩ := (h.reaches_iff_walk w _).mp reached
      exact same a ((h.reaches_iff_walk v _).mpr ⟨name :: rest, by simp [walk, edge, walked]⟩)

theorem reaches_congr {h h' : Heap} {v : Val} (same : ∀ a, h.Reaches v (.ref a) → h'.cell? a = h.cell? a) (w : Val) :
    h'.Reaches v w ↔ h.Reaches v w := by
  simp only [reaches_iff_walk, walk_congr same]

theorem shape_congr {h h' : Heap} {v : Val} (same : ∀ a, v = .ref a → h'.cell? a = h.cell? a) :
    h'.shape v = h.shape v := by
  cases v with
  | ref a => simp only [shape, same a rfl]
  | undefined => rfl
  | prim p => rfl

theorem shapeAt_congr {h h' : Heap} {v : Val} (same : ∀ a, h.Reaches v (.ref a) → h'.cell? a = h.cell? a)
    (path : List String) : h'.shapeAt v path = h.shapeAt v path := by
  simp only [shapeAt, walk_congr same]
  cases walked : h.walk v path with
  | none => rfl
  | some w =>
    apply congrArg some
    apply shape_congr
    intro a same
    subst same
    exact same a ((h.reaches_iff_walk v _).mpr ⟨path, walked⟩)

theorem Denotes.congr {h h' : Heap} {v : Val} {j : Json} (d : h.Denotes v j)
    (same : ∀ a, h.Reaches v (.ref a) → h'.cell? a = h.cell? a) : h'.Denotes v j :=
  fun path => (shapeAt_congr same path).trans (d path)

theorem Denotes.reached_bound {h : Heap} {v : Val} {j : Json} (d : h.Denotes v j) {a : Nat}
    (reached : h.Reaches v (.ref a)) : a < h.size := by
  obtain ⟨_, c, _, _, denotes⟩ := d.reaches reached
  obtain ⟨cell, found, _⟩ := denotes.live
  exact cell_bound found

end Heap

end Js
