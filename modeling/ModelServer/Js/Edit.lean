import ModelServer.Js.Heap

namespace Js
open Relations

inductive Node (α : Type)
  | object (props : List (String × α))
  | array (elems : List α)

inductive Edit
  | insert
  | remove
  | replace
  deriving DecidableEq, Repr

inductive Origin
  | inserted
  | kept (name : String)
  | absent
  deriving DecidableEq, Repr

namespace Node

variable {α β : Type}

def child : Node α → String → Option α
  | object props, name => props.lookup name
  | array elems, name => (indexOf? name).bind (elems[·]?)

def length? : Node α → Option Nat
  | object _ => none
  | array elems => some elems.length

end Node

/-- The index at which an element is added: `-` stands for the end of the array. -/
def insertIndex (name : String) (length : Nat) : Option Nat :=
  if name = "-" then some length else (indexOf? name).filter (· ≤ length)

theorem insertIndex_le {name : String} {length i : Nat} (h : insertIndex name length = some i) : i ≤ length := by
  unfold insertIndex at h
  split at h
  · rw [Option.some.inj h]
  · simpa using (Option.filter_eq_some_iff.mp h).2

namespace Edit

variable {α β : Type}

def apply (e : Edit) (name : String) (x : α) : Node α → Option (Node α)
  | .object props => match e with
    | insert => some (.object (put name x props))
    | remove => if (props.lookup name).isSome then some (.object (Js.remove name props)) else none
    | replace => if (props.lookup name).isSome then some (.object (put name x props)) else none
  | .array elems => match e with
    | insert => (insertIndex name elems.length).map fun i => .array (elems.insertIdx i x)
    | remove => ((indexOf? name).filter (· < elems.length)).map fun i => .array (elems.eraseIdx i)
    | replace => ((indexOf? name).filter (· < elems.length)).map fun i => .array (elems.set i x)

def origin (e : Edit) (length : Option Nat) (name key : String) : Origin :=
  match e, length with
  | insert, none => if key = name then .inserted else .kept key
  | insert, some length => match insertIndex name length, indexOf? key with
    | some i, some k => if k < i then .kept key else if k = i then .inserted else .kept (indexName (k - 1))
    | _, _ => .absent
  | remove, none => if key = name then .absent else .kept key
  | remove, some _ => match indexOf? name, indexOf? key with
    | some i, some k => if k < i then .kept key else .kept (indexName (k + 1))
    | _, _ => .absent
  | replace, _ => if key = name then .inserted else .kept key

def length : Edit → Nat → Nat
  | insert, n => n + 1
  | remove, n => n - 1
  | replace, n => n

end Edit

def Origin.value {α : Type} (child : String → Option α) (x : α) : Origin → Option α
  | inserted => some x
  | kept name => child name
  | absent => none

namespace Edit

variable {α β : Type}

theorem length_apply {e : Edit} {name : String} {x : α} {n n' : Node α} (applied : e.apply name x n = some n') :
    n'.length? = n.length?.map e.length := by
  cases n with
  | object props =>
    cases e <;> simp only [apply] at applied
    · rw [← Option.some.inj applied]
      rfl
    · split at applied
      · rw [← Option.some.inj applied]
        rfl
      · cases applied
    · split at applied
      · rw [← Option.some.inj applied]
        rfl
      · cases applied
  | array elems =>
    cases e <;> simp only [apply, Option.map_eq_some_iff] at applied
    · rcases applied with ⟨i, found, rfl⟩
      simp [Node.length?, length, List.length_insertIdx, insertIndex_le found]
    · rcases applied with ⟨i, found, rfl⟩
      have inside : i < elems.length := by simpa using (Option.filter_eq_some_iff.mp found).2
      simp [Node.length?, length, List.length_eraseIdx, inside]
    · rcases applied with ⟨i, found, rfl⟩
      simp [Node.length?, length]

theorem child_apply_object {e : Edit} {name : String} {x : α} {props : List (String × α)} {n' : Node α}
    (applied : e.apply name x (.object props) = some n') (key : String) :
    n'.child key = (e.origin none name key).value (Node.object props).child x := by
  cases e <;> simp only [apply] at applied
  · rw [← Option.some.inj applied]
    simp only [Node.child, origin, lookup_put]
    split <;> rfl
  · split at applied
    · rw [← Option.some.inj applied]
      simp only [Node.child, origin, lookup_remove]
      split <;> rfl
    · cases applied
  · split at applied
    · rw [← Option.some.inj applied]
      simp only [Node.child, origin, lookup_put]
      split <;> rfl
    · cases applied

theorem child_insertIdx {elems : List α} {name : String} {i : Nat} (found : insertIndex name elems.length = some i) (x : α)
    (key : String) : (Node.array (elems.insertIdx i x)).child key =
      (Edit.insert.origin (some elems.length) name key).value (Node.array elems).child x := by
  simp only [Node.child, origin, found]
  cases at_key : indexOf? key with
  | none => rfl
  | some k =>
    simp only [Option.bind_some, List.getElem?_insertIdx]
    split
    · simp [Origin.value, Node.child, at_key]
    · split
      · simp [Origin.value, insertIndex_le found, *]
      · simp [Origin.value, Node.child]

theorem child_eraseIdx {elems : List α} {name : String} {i : Nat} (index : indexOf? name = some i) (x : α)
    (key : String) : (Node.array (elems.eraseIdx i)).child key =
      (Edit.remove.origin (some elems.length) name key).value (Node.array elems).child x := by
  simp only [Node.child, origin, index]
  cases at_key : indexOf? key with
  | none => rfl
  | some k =>
    simp only [Option.bind_some, List.getElem?_eraseIdx]
    split
    · simp [Origin.value, Node.child, at_key]
    · simp [Origin.value, Node.child]

theorem child_apply_array {e : Edit} {name : String} {x : α} {elems : List α} {n' : Node α}
    (applied : e.apply name x (.array elems) = some n') (key : String) :
    n'.child key = (e.origin (some elems.length) name key).value (Node.array elems).child x := by
  cases e <;> simp only [apply, Option.map_eq_some_iff] at applied
  · rcases applied with ⟨i, found, rfl⟩
    exact child_insertIdx found x key
  · rcases applied with ⟨i, found, rfl⟩
    exact child_eraseIdx (Option.filter_eq_some_iff.mp found).1 x key
  · rcases applied with ⟨i, found, rfl⟩
    have index := (Option.filter_eq_some_iff.mp found).1
    have inside : i < elems.length := by simpa using (Option.filter_eq_some_iff.mp found).2
    simp only [Node.child, origin, child_set index inside x key]
    split <;> rfl

theorem child_apply {e : Edit} {name : String} {x : α} {n n' : Node α} (applied : e.apply name x n = some n')
    (key : String) : n'.child key = (e.origin n.length? name key).value n.child x := by
  cases n with
  | object props => exact child_apply_object applied key
  | array elems => exact child_apply_array applied key

theorem isSome_apply (e : Edit) (name : String) (x : α) (n : Node α) : (e.apply name x n).isSome =
    match e, n.length? with
    | insert, none => true
    | insert, some length => (insertIndex name length).isSome
    | _, _ => (n.child name).isSome := by
  have inside : ∀ elems : List α,
      ((indexOf? name).filter (· < elems.length)).isSome = ((indexOf? name).bind (elems[·]?)).isSome := by
    intro elems
    cases indexOf? name with
    | none => rfl
    | some i =>
      by_cases bound : i < elems.length
      · simp [Option.filter, bound]
      · simp [Option.filter, bound]
  cases n with
  | object props =>
    cases e
    · rfl
    · simp only [apply, Node.child]
      split <;> simp [*]
    · simp only [apply, Node.child]
      split <;> simp [*]
  | array elems =>
    cases e
    · simp [apply, Node.length?]
    · simp only [apply, Node.child, Option.isSome_map, inside]
    · simp only [apply, Node.child, Option.isSome_map, inside]

theorem apply_rel {R : α → β → Prop} {m : Node α} {n : Node β} (length : m.length? = n.length?)
    (children : ∀ key, Option.Rel R (m.child key) (n.child key)) {x : α} {y : β} (related : R x y) (e : Edit)
    (name : String) : Option.Rel (fun m' n' => m'.length? = n'.length? ∧
      ∀ key, Option.Rel R (m'.child key) (n'.child key)) (e.apply name x m) (e.apply name y n) := by
  have here : (m.child name).isSome = (n.child name).isSome := isSome_of_rel (children name)
  have both : (e.apply name x m).isSome = (e.apply name y n).isSome := by
    rw [isSome_apply, isSome_apply, length, here]
  cases first : e.apply name x m with
  | none =>
    cases second : e.apply name y n with
    | none => exact .none
    | some n' => simp [first, second] at both
  | some m' =>
    cases second : e.apply name y n with
    | none => simp [first, second] at both
    | some n' =>
      refine .some ⟨?_, fun key => ?_⟩
      · rw [length_apply first, length_apply second, length]
      · rw [child_apply first, child_apply second, length]
        cases e.origin n.length? name key with
        | inserted => exact .some related
        | kept k => exact children k
        | absent => exact .none

theorem origin_inserted {e : Edit} {length : Option Nat} {name key key' : String}
    (first : e.origin length name key = .inserted) (second : e.origin length name key' = .inserted) : key = key' := by
  have at_index : ∀ {i : Nat} {key : String}, indexOf? key = some i → key = indexName i :=
    fun found => (indexName_of_indexOf found).symm
  cases e <;> cases length <;> simp only [origin] at first second <;> grind

theorem origin_kept {e : Edit} {length : Option Nat} {name key key' k : String}
    (first : e.origin length name key = .kept k) (second : e.origin length name key' = .kept k) : key = key' := by
  have at_index : ∀ {i : Nat} {key : String}, indexOf? key = some i → key = indexName i :=
    fun found => (indexName_of_indexOf found).symm
  have back : ∀ i, indexOf? (indexName i) = some i := indexOf_indexName
  cases e <;> cases length <;> simp only [origin] at first second <;> grind

theorem origin_removed {length : Option Nat} {name key : String} : remove.origin length name key ≠ .kept name := by
  have back : ∀ i, indexOf? (indexName i) = some i := indexOf_indexName
  cases length <;> simp only [origin] <;> grind

end Edit

end Js
