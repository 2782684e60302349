import ModelServer.Js.PatchInPlace

namespace Js
open Relations

namespace Heap

section EditDenotes

variable {h : Heap} {v w x : Val} {t q c : Json} {a : Nat}

theorem Denotes.write (d : h.Denotes w c) (avoids : ¬ h.Reaches w (.ref a)) (cell : Cell) : (h.write a cell).Denotes w c := by
  apply d.congr
  intro b reached
  apply cell_write_other
  intro same
  subst same
  exact avoids reached

theorem denotes_node (m : Node Val) (n : Node Json) (cell : h.cell? a = some m.toCell) (length : m.length? = n.length?)
    (children : ∀ key, Option.Rel h.Denotes (m.child key) (n.child key)) : h.Denotes (.ref a) n.toJson := by
  apply denotes_of_children
  · simp only [Heap.shape, cell, Option.map_some, Option.getD_some]
    cases m <;> cases n <;> simp_all [Node.length?, Node.toCell, Node.toJson, Cell.shape, Json.shape]
  · intro key
    have child : n.toJson.child key = n.child key := by cases n <;> rfl
    rw [child, child_ref, cell, Option.bind_some, Node.child_toCell]
    exact children key

theorem node_rel (d : h.Denotes (.ref a) t) : ∃ cell n, h.cell? a = some cell ∧ t.node? = some n ∧
    cell.node.length? = n.length? ∧ (∀ key, h.child (.ref a) key = cell.node.child key) ∧
    ∀ key, t.child key = n.child key := by
  rcases d.live with ⟨cell, found, shape⟩
  cases t with
  | prim p => cases cell <;> cases shape
  | arr elems =>
    cases cell with
    | object props => cases shape
    | array vs => exact ⟨.array vs, _, found, rfl, congrArg some (Shape.arr.inj shape), fun key => by simp [found], fun key => rfl⟩
  | obj props =>
    cases cell with
    | object ps => exact ⟨.object ps, _, found, rfl, rfl, fun key => by simp [found], fun key => rfl⟩
    | array vs => cases shape

theorem target_nil (a : Nat) : h.target (.ref a) [] = some a := rfl

theorem target_of_walk {path : List String} (walked : h.walk v path = some (.ref a)) : h.target v path = some a := by
  simp [target, walked]

theorem walk_of_target {path : List String} (found : h.target v path = some a) : h.walk v path = some (.ref a) := by
  unfold target at found
  split at found
  · rename_i b walked
    rw [walked, Option.some.inj found]
  · cases found

theorem edit_cons (e : Edit) (name key : String) (x : Val) (h : Heap) (v : Val) (path : List String) :
    edit e name x h v (key :: path) = (h.child v key).bind fun w => edit e name x h w path := by
  simp only [edit, target, walk]
  cases h.child v key <;> rfl

theorem edit_eq_some {e : Edit} {name : String} {path : List String} {h' : Heap} (edited : edit e name x h v path = some h') :
    ∃ a cell n, h.target v path = some a ∧ h.cell? a = some cell ∧ e.apply name x cell.node = some n ∧
      h' = h.write a n.toCell := by
  unfold edit at edited
  cases found : h.target v path with
  | none => simp [found] at edited
  | some a =>
    cases at_a : h.cell? a with
    | none => simp [found, at_a] at edited
    | some cell =>
      cases applied : e.apply name x cell.node with
      | none => simp [found, at_a, applied] at edited
      | some n =>
        simp only [found, at_a, applied, Option.bind_eq_bind, Option.bind_some, Option.pure_def] at edited
        exact ⟨a, cell, n, rfl, at_a, applied, (Option.some.inj edited).symm⟩

/-- The cell is read along this path only. -/
def Alone (h : Heap) (v : Val) (path : List String) (a : Nat) : Prop :=
  ∀ path', h.walk v path' = some (.ref a) → path' = path

theorem Alone.child {key : String} {path : List String} (alone : h.Alone v (key :: path) a)
    (edge : h.child v key = some w) : h.Alone w path a := by
  intro path' walked
  have whole : h.walk v (key :: path') = some (.ref a) := by
    rw [walk, edge]
    exact walked
  exact (List.cons.inj (alone _ whole)).2

theorem Alone.beside {key other : String} {path : List String} (alone : h.Alone v (key :: path) a)
    (edge : h.child v other = some w) (different : other ≠ key) : ¬ h.Reaches w (.ref a) := by
  intro reached
  rcases (h.reaches_iff_walk w _).mp reached with ⟨rest, walked⟩
  have whole : h.walk v (other :: rest) = some (.ref a) := by
    rw [walk, edge]
    exact walked
  exact different (List.cons.inj (alone _ whole)).1

theorem Alone.below {key : String} (alone : h.Alone v [] a) (edge : h.child v key = some w) :
    ¬ h.Reaches w (.ref a) := by
  intro reached
  rcases (h.reaches_iff_walk w _).mp reached with ⟨rest, walked⟩
  have whole : h.walk v (key :: rest) = some (.ref a) := by
    rw [walk, edge]
    exact walked
  cases alone _ whole

theorem no_node (d : h.Denotes v t) (prim : t.node? = none) : h.target v [] = none ∧ ∀ key, h.child v key = none := by
  cases t with
  | prim p =>
    cases d.eq_prim
    exact ⟨rfl, fun _ => rfl⟩
  | arr elems => cases prim
  | obj props => cases prim

theorem ref_of_node {n : Node Json} (d : h.Denotes v t) (node : t.node? = some n) : ∃ a, v = .ref a := by
  cases t with
  | prim p => cases node
  | arr elems =>
    rcases d.of_arr with ⟨a, vs, same, -⟩
    exact ⟨a, same⟩
  | obj props =>
    rcases d.of_obj with ⟨a, ps, same, -⟩
    exact ⟨a, same⟩

theorem edit_here (e : Edit) (name : String) (d : h.Denotes (.ref a) t) (dx : h.Denotes x q)
    (alone : h.Alone (.ref a) [] a) (avoids : ¬ h.Reaches x (.ref a)) :
    Option.Rel (fun h' t' => h'.Denotes (.ref a) t') (edit e name x h (.ref a) []) (Json.edit e name q t []) := by
  rcases node_rel d with ⟨cell, n, found, node, length, edges, children⟩
  have related : ∀ key, Option.Rel (fun w c => h.Denotes w c ∧ ¬ h.Reaches w (.ref a)) (cell.node.child key) (n.child key) := by
    intro key
    rw [← edges, ← children]
    exact rel_mono (d.children key) fun w c edge _ denotes => ⟨denotes, alone.below edge⟩
  have applied := Edit.apply_rel length related ⟨dx, avoids⟩ e name
  simp only [edit, target_nil, found, node, Json.edit, Option.bind_eq_bind, Option.bind_some, Option.pure_def]
  refine rel_bind applied fun m' n' _ _ edited => .some (denotes_node m' n' ?_ edited.1 fun key => ?_)
  · rw [cell_write _ _ _ _ (cell_bound found), if_pos rfl]
  · exact rel_mono (edited.2 key) fun w c _ _ denotes => denotes.1.write denotes.2 _

theorem denotes_replaced {h' : Heap} {key : String} {b : Nat} {n n' : Node Json} (d : h.Denotes (.ref b) t)
    (node : t.node? = some n) (replaced : Edit.replace.apply key c n = some n') (kept : h'.cell? b = h.cell? b)
    (edge : h.child (.ref b) key = some w) (denotes : h'.Denotes w c)
    (others : ∀ other w' c', other ≠ key → h.child (.ref b) other = some w' → h.Denotes w' c' → h'.Denotes w' c') :
    h'.Denotes (.ref b) n'.toJson := by
  rcases node_rel d with ⟨cell, n₀, found, node₀, length, edges, children⟩
  cases node.symm.trans node₀
  have whole : cell = cell.node.toCell := by cases cell <;> rfl
  refine denotes_node cell.node n' (by rw [kept, found, ← whole]) ?_ fun other => ?_
  · rw [Edit.length_apply replaced, length]
    cases n.length? <;> rfl
  · rw [Edit.child_apply replaced, ← edges, Edit.origin]
    by_cases same : other = key
    · rw [same, edge, if_pos rfl]
      exact .some denotes
    · rw [if_neg same, Origin.value, ← children]
      exact rel_mono (d.children other) fun w' c' edge' _ => others other w' c' same edge'

theorem target_child {v w : Val} {key : String} {path : List String} {a : Nat} (edge : h.child v key = some w)
    (at_path : h.target w path = some a) : h.target v (key :: path) = some a := by
  apply target_of_walk
  rw [walk, edge]
  exact walk_of_target at_path

/-- An edit in place of a cell that is read along this path only, and not from the new value, is an edit
    of the document. -/
theorem edit_denotes (e : Edit) (name : String) (dx : h.Denotes x q) {path : List String} :
    ∀ {v : Val} {t : Json}, h.Denotes v t →
      (∀ a, h.target v path = some a → h.Alone v path a ∧ ¬ h.Reaches x (.ref a)) →
      Option.Rel (fun h' t' => h'.Denotes v t') (edit e name x h v path) (Json.edit e name q t path) := by
  induction path with
  | nil =>
    intro v t d sole
    cases node : t.node? with
    | none =>
      rw [edit, (no_node d node).1, Json.edit, node]
      exact .none
    | some n =>
      rcases ref_of_node d node with ⟨a, rfl⟩
      exact edit_here e name d dx (sole a rfl).1 (sole a rfl).2
  | cons key path ih =>
    intro v t d sole
    rw [edit_cons, Json.edit]
    cases node : t.node? with
    | none =>
      rw [(no_node d node).2 key]
      exact .none
    | some n =>
      rcases ref_of_node d node with ⟨b, rfl⟩
      rcases node_rel d with ⟨cell, n₀, found, node₀, -, -, children⟩
      cases node.symm.trans node₀
      simp only [Option.bind_eq_bind, Option.bind_some, ← children]
      refine rel_bind (d.children key) fun w c edge below denotes => ?_
      have inner := ih denotes fun a at_path =>
        ⟨(sole a (target_child edge at_path)).1.child edge, (sole a (target_child edge at_path)).2⟩
      rw [← Option.bind_fun_some (edit e name x h w path)]
      refine rel_bind inner fun h' c' edited _ denotes' => ?_
      have present : (Edit.replace.apply key c' n).isSome := by
        rw [Edit.isSome_apply, ← children, below]
        cases n.length? <;> rfl
      rcases Option.isSome_iff_exists.mp present with ⟨n', replaced⟩
      rcases edit_eq_some edited with ⟨a, old, new, at_path, -, -, rfl⟩
      have alone := (sole a (target_child edge at_path)).1
      have here : b ≠ a := by
        intro same
        subst same
        cases alone [] rfl
      rw [replaced]
      exact .some (denotes_replaced d node replaced (cell_write_other _ _ here) edge denotes'
        fun other w' c'' different edge' d' => d'.write (alone.beside edge' different) _)

end EditDenotes

end Heap

end Js
