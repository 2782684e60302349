import ModelServer.Js.Relabel

namespace Js
open Relations

def Node.Same (m n : Node Json) : Prop :=
  m.length? = n.length? ∧ ∀ key, Option.Rel Json.Same (m.child key) (n.child key)

namespace Json

section Congruence

variable {a b x y : Json}

theorem Same.node (same : a.Same b) : Option.Rel Node.Same a.node? b.node? := by
  have shape := same.shape
  cases a with
  | prim p =>
    cases b with
    | prim q => exact .none
    | arr elems => cases shape
    | obj props => cases shape
  | arr elems =>
    cases b with
    | prim q => cases shape
    | arr elems' => exact .some ⟨congrArg some (Shape.arr.inj shape), same.child⟩
    | obj props => cases shape
  | obj props =>
    cases b with
    | prim q => cases shape
    | arr elems => cases shape
    | obj props' => exact .some ⟨rfl, same.child⟩

theorem same_of_node {m n : Node Json} (same : m.Same n) : m.toJson.Same n.toJson := by
  rcases same with ⟨length, children⟩
  cases m with
  | object props =>
    cases n with
    | object props' => exact same_of_children rfl children
    | array elems => cases length
  | array elems =>
    cases n with
    | object props => cases length
    | array elems' => exact same_of_children (congrArg Shape.arr (Option.some.inj length)) children

theorem Same.at (same : a.Same b) (path : List String) : Option.Rel Same (a.at? path) (b.at? path) := by
  induction path generalizing a b with
  | nil => exact .some same
  | cons key path ih => exact rel_bind (same.child key) fun c d _ _ below => ih below

theorem edit_same (e : Edit) (name : String) (value : x.Same y) {path : List String} :
    ∀ {a b : Json}, a.Same b → Option.Rel Same (edit e name x a path) (edit e name y b path) := by
  induction path with
  | nil =>
    intro a b same
    rw [edit, edit]
    refine rel_bind same.node fun m n _ _ nodes => ?_
    refine rel_bind (Edit.apply_rel nodes.1 nodes.2 value e name) fun m' n' _ _ edited => ?_
    exact .some (same_of_node edited)
  | cons key path ih =>
    intro a b same
    rw [edit, edit]
    refine rel_bind same.node fun m n _ _ nodes => ?_
    refine rel_bind (nodes.2 key) fun c d _ _ below => ?_
    refine rel_bind (ih below) fun c' d' _ _ below' => ?_
    refine rel_bind (Edit.apply_rel nodes.1 nodes.2 below' .replace key) fun m' n' _ _ edited => ?_
    exact .some (same_of_node edited)

theorem change_same (e : Edit) (value : x.Same y) (same : a.Same b) (tokens : List String) :
    Option.Rel Same (change e x a tokens) (change e y b tokens) := by
  unfold change
  cases place tokens with
  | none => exact .some value
  | some target => exact edit_same e target.2 value same

theorem alike_same (same : a.Same b) (value : x.Same y) : a.alike x = b.alike y := by
  rw [Bool.eq_iff_iff, alike_iff, alike_iff]
  constructor
  · intro alike
    exact same.symm.trans (alike.trans value)
  · intro alike
    exact same.trans (alike.trans value.symm)

end Congruence

end Json

/-- An operation has the same result on documents that differ in the order of properties only. -/
theorem Operation.apply_same {op op' : Operation Json} (related : Operation.Rel Json.Same op op') {a b : Json}
    (same : a.Same b) : Option.Rel Json.Same (op.apply a) (op'.apply b) := by
  have self : ∀ {α : Type} (x : Option α), Option.Rel (· = ·) x x := by
    intro α x
    cases x with
    | none => exact .none
    | some value => exact .some rfl
  cases related with
  | add value =>
    exact rel_bind (self _) fun target _ _ _ target' => target' ▸ Json.change_same .insert value same target
  | remove =>
    exact rel_bind (self _) fun target _ _ _ target' => target' ▸ Json.change_same .remove (.refl _) same target
  | replace value =>
    exact rel_bind (self _) fun target _ _ _ target' => target' ▸ Json.change_same .replace value same target
  | test value =>
    refine rel_bind (self _) fun target _ _ _ target' => ?_
    subst target'
    refine rel_bind (same.at target) fun c d _ _ found => ?_
    rw [Json.alike_same found value]
    split
    · exact .some same
    · exact .none
  | move =>
    refine rel_bind (self _) fun source _ _ _ source' => ?_
    subst source'
    refine rel_bind (self _) fun target _ _ _ target' => ?_
    subst target'
    refine rel_bind (same.at source) fun c d _ _ found => ?_
    split
    · exact .some found
    · split
      · exact .none
      · exact rel_bind (Json.change_same .remove (.refl _) same source) fun a' b' _ _ removed =>
          Json.change_same .insert found removed target
  | copy =>
    refine rel_bind (self _) fun source _ _ _ source' => ?_
    subst source'
    refine rel_bind (self _) fun target _ _ _ target' => ?_
    subst target'
    exact rel_bind (same.at source) fun c d _ _ found => Json.change_same .insert found same target
  | invalid => exact .none

theorem Json.patched_same {ops ops' : List (Operation Json)} (related : List.Forall₂ (Operation.Rel Json.Same) ops ops') :
    ∀ {a b : Json}, a.Same b → Option.Rel Json.Same (a.patched ops) (b.patched ops') := by
  induction related with
  | nil => exact fun same => .some same
  | cons here _ ih =>
    intro a b same
    exact rel_bind (Operation.apply_same here same) fun a' b' _ _ applied => ih applied

section Operations

theorem Operation.ofChild_same {a b : Json} (same : a.Same b) :
    Operation.Rel Json.Same (.ofChild a.child Json.string?) (.ofChild b.child Json.string?) := by
  refine ofChild_rel (same.child "value") fun key => ?_
  have related := same.child key
  revert related
  cases a.child key <;> cases b.child key <;> intro related
  · rfl
  · cases related
  · cases related
  · rename_i c d
    cases related with
    | some same =>
      have shape := same.shape
      cases c <;> cases d <;> simp_all [Json.shape, Json.string?]

theorem Json.operations_same {a b : Json} (same : a.Same b) :
    List.Forall₂ (Operation.Rel Json.Same) a.operations b.operations := by
  have shape := same.shape
  cases a with
  | prim p =>
    cases b with
    | prim q => exact .nil
    | arr elems => cases shape
    | obj props => cases shape
  | obj props =>
    cases b with
    | prim q => cases shape
    | arr elems => cases shape
    | obj props' => exact .nil
  | arr elems =>
    cases b with
    | prim q => cases shape
    | obj props => cases shape
    | arr elems' =>
      have length : elems.length = elems'.length := Shape.arr.inj shape
      rw [operations, operations, List.forall₂_map_left_iff, List.forall₂_map_right_iff, List.forall₂_iff_get]
      refine ⟨length, fun i inside inside' => ?_⟩
      have related := same.child (indexName i)
      simp only [child, indexOf_indexName, Option.bind_some, List.getElem?_eq_getElem inside,
        List.getElem?_eq_getElem inside'] at related
      cases related with
      | some below => exact Operation.ofChild_same below

def operationKeys : List String := ["op", "path", "value", "from"]

theorem Json.operations_relabel {σ : Equiv.Perm String} (fixed : ∀ key ∈ operationKeys, σ key = key) (j : Json) :
    (j.relabel σ).operations = j.operations.map (Operation.map (relabel σ)) := by
  have each : ∀ op : Json, Operation.ofChild (op.relabel σ).child string? =
      (Operation.ofChild op.child string?).map (relabel σ) := by
    intro op
    have related : ∀ key ∈ operationKeys, (op.relabel σ).child key = (op.child key).map (relabel σ) :=
      fun key member => child_relabel (fixed key member) op
    have text : ∀ key ∈ operationKeys, ((op.relabel σ).child key).bind string? = (op.child key).bind string? := by
      intro key member
      rw [related key member]
      cases op.child key with
      | none => rfl
      | some c => cases c <;> rfl
    have value := related "value" (by decide)
    unfold Operation.ofChild
    rw [text "op" (by decide), text "path" (by decide), text "from" (by decide), value]
    cases (op.child "op").bind string? with
    | none => rfl
    | some name =>
      cases (op.child "path").bind string? with
      | none => rfl
      | some path =>
        dsimp only
        split_ifs
        · rfl
        · cases op.child "value" <;> rfl
        · cases op.child "value" <;> rfl
        · cases op.child "value" <;> rfl
        · cases (op.child "from").bind string? <;> rfl
        · cases (op.child "from").bind string? <;> rfl
        · rfl
  cases j with
  | prim p => rfl
  | obj props => rfl
  | arr elems =>
    rw [relabel, relabelElems_eq, operations, operations, List.map_map, List.map_map]
    exact List.map_congr_left fun op _ => each op

end Operations

section Keys

variable {key : String}

theorem Json.HasKey.of_at {j c : Json} {path : List String} (found : j.at? path = some c) (typed : c.HasKey key) :
    j.HasKey key := by
  induction path generalizing j with
  | nil =>
    cases found
    exact typed
  | cons name path ih =>
    rw [at?] at found
    rcases Option.bind_eq_some_iff.mp found with ⟨d, edge, below⟩
    exact (hasKey_iff j key).mpr (.inr ⟨name, d, edge, ih below⟩)

theorem Node.child_toJson (n : Node Json) (name : String) : n.toJson.child name = n.child name := by
  cases n <;> rfl

theorem Node.of_node {j : Json} {n : Node Json} (node : j.node? = some n) : n.toJson = j := by
  cases j with
  | prim p => cases node
  | arr elems => cases node; rfl
  | obj props => cases node; rfl

/-- The keys of an edited node are its own, those of the new value, and the name of the place. -/
theorem Edit.hasKey_apply {e : Edit} {name : String} {x : Json} {n n' : Node Json} (applied : e.apply name x n = some n')
    (typed : n'.toJson.HasKey key) : n.toJson.HasKey key ∨ x.HasKey key ∨ key = name := by
  have from_origin : ∀ {k c}, n'.child k = some c →
      (e.origin n.length? name k = .inserted ∧ c = x) ∨ ∃ k', e.origin n.length? name k = .kept k' ∧ n.child k' = some c := by
    intro k c found
    rw [child_apply applied] at found
    cases origin : e.origin n.length? name k with
    | inserted =>
      rw [origin] at found
      exact .inl ⟨rfl, (Option.some.inj found).symm⟩
    | kept k' =>
      rw [origin] at found
      exact .inr ⟨k', rfl, found⟩
    | absent =>
      rw [origin] at found
      cases found
  rcases (Json.hasKey_iff _ _).mp typed with ⟨object, present⟩ | ⟨k, c, found, below⟩
  · rcases Option.isSome_iff_exists.mp present with ⟨c, found⟩
    have length : n.length? = none := by
      have lengths := length_apply applied
      cases n' with
      | array elems => cases object
      | object props =>
        cases n with
        | object props' => rfl
        | array elems => cases lengths
    rw [Node.child_toJson] at found
    have plain : e.origin none name key = .inserted → key = name := by
      cases e <;> simp only [origin] <;> split <;> simp_all
    have same : ∀ k', e.origin none name key = .kept k' → k' = key := by
      cases e <;> simp only [origin] <;> split <;> simp_all
    rcases from_origin found with ⟨origin, -⟩ | ⟨k', origin, kept⟩
    · rw [length] at origin
      exact .inr (.inr (plain origin))
    · rw [length] at origin
      rw [same k' origin] at kept
      refine .inl ((Json.hasKey_iff _ _).mpr (.inl ⟨?_, by rw [Node.child_toJson, kept]; rfl⟩))
      cases n with
      | object props => rfl
      | array elems => cases length
  · rw [Node.child_toJson] at found
    rcases from_origin found with ⟨-, rfl⟩ | ⟨k', -, kept⟩
    · exact .inr (.inl below)
    · exact .inl ((Json.hasKey_iff _ _).mpr (.inr ⟨k', c, by rw [Node.child_toJson, kept], below⟩))

namespace Json

theorem hasKey_edit {e : Edit} {name : String} {x : Json} {path : List String} :
    ∀ {j j' : Json}, edit e name x j path = some j' → j'.HasKey key →
      j.HasKey key ∨ x.HasKey key ∨ key ∈ path ++ [name] := by
  induction path with
  | nil =>
    intro j j' edited typed
    simp only [edit, Option.bind_eq_bind, Option.bind_eq_some_iff] at edited
    rcases edited with ⟨n, node, n', applied, done⟩
    rw [← Option.some.inj done] at typed
    rw [← Node.of_node node]
    simpa using Edit.hasKey_apply applied typed
  | cons k path ih =>
    intro j j' edited typed
    simp only [edit, Option.bind_eq_bind, Option.bind_eq_some_iff] at edited
    rcases edited with ⟨n, node, c, edge, c', below, n', applied, done⟩
    rw [← Option.some.inj done] at typed
    rw [← Node.of_node node]
    rcases Edit.hasKey_apply applied typed with old | inner | new
    · exact .inl old
    · rcases ih below inner with old | value | inside
      · rw [← Node.child_toJson] at edge
        exact .inl ((hasKey_iff _ _).mpr (.inr ⟨k, c, edge, old⟩))
      · exact .inr (.inl value)
      · exact .inr (.inr (List.mem_cons_of_mem _ inside))
    · exact .inr (.inr (new ▸ List.mem_cons_self))

theorem hasKey_change {e : Edit} {x j j' : Json} {tokens : List String} (changed : change e x j tokens = some j')
    (typed : j'.HasKey key) : j.HasKey key ∨ x.HasKey key ∨ key ∈ tokens := by
  unfold change place at changed
  rcases List.eq_nil_or_concat tokens with rfl | ⟨path, name, rfl⟩
  · rw [← Option.some.inj changed] at typed
    exact .inr (.inl typed)
  · rw [List.concat_eq_append] at changed ⊢
    simp only [List.getLast?_append, List.getLast?_singleton, Option.some_or, Option.map_some, List.dropLast_concat] at changed
    exact hasKey_edit changed typed

end Json

namespace Operation

def values {α : Type} : Operation α → List α
  | add _ value | replace _ value | test _ value => [value]
  | _ => []

/-- Patching brings in the keys of the values and the names in the pointers, and no others. -/
theorem hasKey_apply {op : Operation Json} {j j' : Json} (applied : op.apply j = some j') (typed : j'.HasKey key) :
    j.HasKey key ∨ (∃ x ∈ op.values, x.HasKey key) ∨ key ∈ op.tokens := by
  have named : ∀ {path names}, path ∈ op.pointers → pointer path = some names → key ∈ names → key ∈ op.tokens :=
    fun member target inside => mem_tokens member target inside
  cases op with
  | add path x =>
    rcases Option.bind_eq_some_iff.mp applied with ⟨target, found, changed⟩
    rcases Json.hasKey_change changed typed with old | value | inside
    · exact .inl old
    · exact .inr (.inl ⟨x, by simp [values], value⟩)
    · exact .inr (.inr (named (by simp [pointers]) found inside))
  | replace path x =>
    rcases Option.bind_eq_some_iff.mp applied with ⟨target, found, changed⟩
    rcases Json.hasKey_change changed typed with old | value | inside
    · exact .inl old
    · exact .inr (.inl ⟨x, by simp [values], value⟩)
    · exact .inr (.inr (named (by simp [pointers]) found inside))
  | remove path =>
    rcases Option.bind_eq_some_iff.mp applied with ⟨target, found, changed⟩
    rcases Json.hasKey_change changed typed with old | value | inside
    · exact .inl old
    · exact absurd value (Json.not_hasKey_prim _ _)
    · exact .inr (.inr (named (by simp [pointers]) found inside))
  | test path x =>
    rcases Option.bind_eq_some_iff.mp applied with ⟨target, found, tested⟩
    rcases Option.bind_eq_some_iff.mp tested with ⟨y, -, compared⟩
    split at compared
    · rw [← Option.some.inj compared] at typed
      exact .inl typed
    · cases compared
  | move source path =>
    rcases Option.bind_eq_some_iff.mp applied with ⟨start, origin, applied⟩
    rcases Option.bind_eq_some_iff.mp applied with ⟨target, found, applied⟩
    rcases Option.bind_eq_some_iff.mp applied with ⟨x, taken, applied⟩
    split at applied
    · rw [← Option.some.inj applied] at typed
      exact .inl (.of_at taken typed)
    · split at applied
      · cases applied
      · rcases Option.bind_eq_some_iff.mp applied with ⟨j₁, removed, inserted⟩
        rcases Json.hasKey_change inserted typed with old | value | inside
        · rcases Json.hasKey_change removed old with old | null | inside
          · exact .inl old
          · exact absurd null (Json.not_hasKey_prim _ _)
          · exact .inr (.inr (named (by simp [pointers]) origin inside))
        · exact .inl (.of_at taken value)
        · exact .inr (.inr (named (by simp [pointers]) found inside))
  | copy source path =>
    rcases Option.bind_eq_some_iff.mp applied with ⟨start, origin, applied⟩
    rcases Option.bind_eq_some_iff.mp applied with ⟨target, found, applied⟩
    rcases Option.bind_eq_some_iff.mp applied with ⟨x, taken, inserted⟩
    rcases Json.hasKey_change inserted typed with old | value | inside
    · exact .inl old
    · exact .inl (.of_at taken value)
    · exact .inr (.inr (named (by simp [pointers]) found inside))
  | invalid => cases applied

end Operation

theorem Json.not_hasKey_patched {ops : List (Operation Json)}
    (values : ∀ op ∈ ops, ∀ x ∈ op.values, ¬ x.HasKey key) (tokens : ∀ op ∈ ops, key ∉ op.tokens) :
    ∀ {j j' : Json}, ¬ j.HasKey key → j.patched ops = some j' → ¬ j'.HasKey key := by
  induction ops with
  | nil =>
    intro j j' free done
    rwa [← Option.some.inj done]
  | cons op rest ih =>
    intro j j' free done
    rcases List.forall_mem_cons.mp values with ⟨value, others⟩
    rcases List.forall_mem_cons.mp tokens with ⟨token, names⟩
    rcases Option.bind_eq_some_iff.mp done with ⟨j₁, applied, patched⟩
    refine ih others names (fun typed => ?_) patched
    rcases Operation.hasKey_apply applied typed with old | ⟨x, member, inside⟩ | named
    · exact free old
    · exact value x member inside
    · exact token named

end Keys

end Js
