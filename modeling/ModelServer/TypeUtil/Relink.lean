import ModelServer.TypeUtil.Encode

namespace ModelServer.TypeUtil

open Js

theorem shape_assign (c : Cell) (name : String) (v : Val) : (c.assign name v).shape = c.shape := by
  cases c with
  | object props => rfl
  | array elems =>
    simp only [Cell.assign]
    cases indexOf? name <;> simp [Cell.shape]

theorem child_assign {c : Cell} {name : String} {old : Val} (present : c.child name = some old) (v : Val)
    (key : String) : (c.assign name v).child key = if key = name then some v else c.child key := by
  cases c with
  | object props => exact lookup_put name key v props
  | array elems =>
    simp only [Cell.child] at present
    cases at_name : indexOf? name with
    | none => simp [at_name] at present
    | some i =>
      simp only [at_name, Option.bind_some] at present
      have bound := (List.getElem?_eq_some_iff.mp present).1
      simp only [Cell.assign, at_name]
      exact child_set at_name bound v key

theorem nodup_ownNames (c : Cell) : c.ownNames.Nodup := by
  cases c with
  | object props => exact List.nodup_dedup _
  | array elems =>
    have indices : ((List.range elems.length).map indexName).Nodup :=
      List.nodup_range.map fun _ _ => indexName_injective
    refine List.nodup_append.mpr ⟨indices, by simp, ?_⟩
    simp only [List.mem_map, List.mem_range, List.mem_singleton]
    intro _ given _ same same
    rcases given with ⟨i, -, rfl⟩
    subst same
    have none : indexOf? "length" = none := by decide
    simp [← same] at none

/-- What the referencer makes of a value: an array becomes a new one, of which `fresh` keeps the
    original; any other value becomes its copy, if it has one. -/
def Relinked (copies : Copies) (h : Heap) (fresh : Nat → Option Nat) (v v' : Val) : Prop :=
  match arrayElems? h v with
  | some _ => ∃ a b, v = .ref a ∧ v' = .ref b ∧ fresh b = some a
  | none => v' = copyGetter copies v

theorem Relinked.mono {copies : Copies} {h : Heap} {fresh fresh' : Nat → Option Nat} {v v' : Val}
    (le : ∀ b a, fresh b = some a → fresh' b = some a) (r : Relinked copies h fresh v v') :
    Relinked copies h fresh' v v' := by
  unfold Relinked at r ⊢
  split at r
  · obtain ⟨a, b, rfl, rfl, known⟩ := r
    exact ⟨a, b, rfl, rfl, le b a known⟩
  · exact r

def relinkedArray (copies : Copies) (h : Heap) (a : Nat) (elems : List Val) : Cell :=
  .array (if isNonEmptyObjectArray h (.ref a) then elems.map (copyGetter copies) else elems)

/-- The loop of the referencer over a target with cell `c`, when the properties in `done` are rewritten. -/
structure Relinking (copies : Copies) (h : Heap) (target : Nat) (c : Cell) (done : String → Prop)
    (fresh : Nat → Option Nat) (h' : Heap) : Prop where
  size : h.size ≤ h'.size
  others : ∀ b < h.size, b ≠ target → h'.cell? b = h.cell? b
  rewritten : ∃ c', h'.cell? target = some c' ∧ c'.shape = c.shape ∧
    (∀ name, ¬ done name → c'.child name = c.child name) ∧
    ∀ name, done name → Option.Rel (Relinked copies h fresh) (c.child name) (c'.child name)
  arrays : ∀ b, h.size ≤ b → b < h'.size → ∃ a elems, fresh b = some a ∧ (∃ name, c.child name = some (.ref a)) ∧
    h.cell? a = some (.array elems) ∧ h'.cell? b = some (relinkedArray copies h a elems)
  domain : ∀ b a, fresh b = some a → h.size ≤ b ∧ b < h'.size

/-- The values of the target are older than the loop and do not lead back to the target through arrays. -/
def Apart (h : Heap) (target : Nat) (c : Cell) : Prop :=
  ∀ name a, c.child name = some (.ref a) → (a < h.size ∧ a ≠ target) ∧
    ∀ elems, h.cell? a = some (.array elems) → ∀ key b, h.child (.ref a) key = some (.ref b) → b < h.size ∧ b ≠ target

variable {copies : Copies} {h h' : Heap} {target : Nat} {c : Cell} {done : String → Prop} {fresh : Nat → Option Nat}

theorem Relinking.start (found : h.cell? target = some c) :
    Relinking copies h target c (fun _ => False) (fun _ => none) h where
  size := Nat.le_refl _
  others _ _ _ := rfl
  rewritten := ⟨c, found, rfl, fun _ _ => rfl, fun _ impossible => impossible.elim⟩
  arrays b low high := absurd high (Nat.not_lt_of_le low)
  domain := by simp

theorem Relinking.keep {name : String} (s : Relinking copies h target c done fresh h')
    (same : ∀ v, c.child name = some v → Relinked copies h fresh v v) (open_ : ¬ done name) :
    Relinking copies h target c (fun key => key = name ∨ done key) fresh h' := by
  obtain ⟨c', found, shape, rest, earlier⟩ := s.rewritten
  refine ⟨s.size, s.others, ⟨c', found, shape, fun key other => rest key (by tauto), ?_⟩, s.arrays, s.domain⟩
  intro key given
  rcases given with rfl | before
  · rw [rest key open_]
    cases child : c.child key with
    | none => exact .none
    | some v => exact .some (same v child)
  · exact earlier key before

theorem Relinking.assign {name : String} {v v' : Val} (s : Relinking copies h target c done fresh h')
    (child : c.child name = some v) (relinked : Relinked copies h fresh v v') (open_ : ¬ done name)
    (old : target < h.size) :
    Relinking copies h target c (fun key => key = name ∨ done key) fresh (assignProp h' target name v') := by
  obtain ⟨c', found, shape, rest, earlier⟩ := s.rewritten
  have present : c'.child name = some v := by rw [rest name open_, child]
  have bound := Heap.cell_bound found
  simp only [assignProp, found]
  refine ⟨by simpa using s.size, ?_, ?_, ?_, by simpa using s.domain⟩
  · intro b low other
    rw [Heap.cell_write_other _ _ other, s.others b low other]
  · refine ⟨c'.assign name v', by simp [Heap.cell_write, bound], (shape_assign ..).trans shape, ?_, ?_⟩
    · intro key other
      rw [child_assign present, if_neg (by tauto), rest key (by tauto)]
    · intro key both
      rw [child_assign present]
      by_cases same : key = name
      · subst same
        rw [if_pos rfl, child]
        exact .some relinked
      · rw [if_neg same]
        exact earlier key (both.resolve_left same)
  · intro b low high
    obtain ⟨a, elems, known, named, array, at_b⟩ := s.arrays b low (by simpa using high)
    exact ⟨a, elems, known, named, array, by
      rw [Heap.cell_write_other _ _ (Nat.ne_of_gt (Nat.lt_of_lt_of_le old low)), at_b]⟩

theorem Relinking.alloc {name : String} {a : Nat} {elems : List Val} (s : Relinking copies h target c done fresh h')
    (child : c.child name = some (.ref a)) (array : h.cell? a = some (.array elems)) (old : target < h.size) :
    Relinking copies h target c done (fun b => if b = h'.size then some a else fresh b)
      (h'.alloc (relinkedArray copies h a elems)).1 := by
  have extends_ : ∀ b x, fresh b = some x → (if b = h'.size then some a else fresh b) = some x := by
    intro b x known
    rw [if_neg (Nat.ne_of_lt (s.domain b x known).2), known]
  obtain ⟨c', found, shape, rest, earlier⟩ := s.rewritten
  refine ⟨by simpa using s.size.trans (Nat.le_succ _), ?_, ?_, ?_, ?_⟩
  · intro b low other
    rw [Heap.cell_alloc_old _ _ (low.trans_le s.size), s.others b low other]
  · refine ⟨c', by rw [Heap.cell_alloc_old _ _ (old.trans_le s.size), found], shape, rest, fun key before => ?_⟩
    have related := earlier key before
    revert related
    cases c.child key <;> cases c'.child key <;> intro related <;> cases related
    · exact .none
    · rename_i relinked
      exact .some (relinked.mono extends_)
  · intro b low high
    rcases Nat.lt_succ_iff_lt_or_eq.mp (by simpa using high) with below | rfl
    · obtain ⟨x, xs, known, named, at_x, at_b⟩ := s.arrays b low below
      exact ⟨x, xs, extends_ b x known, named, at_x, by rw [Heap.cell_alloc_old _ _ below, at_b]⟩
    · exact ⟨a, elems, by simp, ⟨name, child⟩, array, by simp [Heap.cell_alloc]⟩
  · intro b x known
    by_cases here : b = h'.size
    · subst here
      exact ⟨s.size, by simp⟩
    · rw [if_neg here] at known
      obtain ⟨low, high⟩ := s.domain b x known
      exact ⟨low, by simpa using Nat.lt_succ_of_lt high⟩

theorem relinkProp_plain {name : String} {v : Val} (read : readProp h target name = v)
    (array : arrayElems? h v = none) (plain : isObject v = false) : relinkProp copies target h name = h := by
  simp [relinkProp, read, array, plain]

theorem Relinking.step_absent {name : String} (s : Relinking copies h target c done fresh h') (open_ : ¬ done name)
    (absent : c.child name = none) :
    Relinking copies h target c (fun key => key = name ∨ done key) fresh (relinkProp copies target h' name) := by
  rcases s.rewritten with ⟨c', found, -, rest, -⟩
  have plain : isObject (readProp h' target name) = false := by
    by_contra object
    have edge := child_of_readProp rfl (by simpa using object)
    simp [found, rest name open_, absent] at edge
  have array : arrayElems? h' (readProp h' target name) = none := by
    cases read : readProp h' target name with
    | ref a => simp [read, isObject] at plain
    | undefined => rfl
    | prim p => rfl
  rw [relinkProp_plain rfl array plain]
  exact s.keep (by simp [absent]) open_

theorem Relinking.read {name : String} {v : Val} (s : Relinking copies h target c done fresh h') (open_ : ¬ done name)
    (child : c.child name = some v) : readProp h' target name = v := by
  rcases s.rewritten with ⟨c', found, -, rest, -⟩
  exact readProp_of_child (by simp [found, rest name open_, child])

theorem Relinking.value_cell {name : String} {v : Val} (s : Relinking copies h target c done fresh h')
    (apart : Apart h target c) (child : c.child name = some v) : ∀ a, v = .ref a → h'.cell? a = h.cell? a := by
  intro a same
  subst same
  exact s.others a (apart name a child).1.1 (apart name a child).1.2

theorem Relinking.step_array {name : String} {v : Val} {elems : List Val}
    (s : Relinking copies h target c done fresh h') (apart : Apart h target c) (old : target < h.size)
    (open_ : ¬ done name) (child : c.child name = some v) (array : arrayElems? h v = some elems) :
    ∃ fresh', Relinking copies h target c (fun key => key = name ∨ done key) fresh'
      (relinkProp copies target h' name) := by
  have read := s.read open_ child
  have same := s.value_cell apart child
  have arrays := arrayElems_congr same
  rcases arrayElems_eq array with ⟨a, rfl, at_a⟩
  have first : isNonEmptyObjectArray h' (.ref a) = isNonEmptyObjectArray h (.ref a) := by
    apply isNonEmptyObjectArray_congr same
    intro key b edge
    rcases (apart name a child).2 elems at_a key b edge with ⟨low, other⟩
    exact s.others b low other
  let fresh' := fun b => if b = h'.size then some a else fresh b
  have relinked : Relinked copies h fresh' (.ref a) (.ref h'.size) := by
    simp only [Relinked, array]
    exact ⟨a, h'.size, rfl, rfl, by simp [fresh']⟩
  have assigned := (s.alloc child at_a old).assign child relinked open_ old
  exact ⟨fresh', by simpa [relinkProp, read, arrays, array, first, relinkedArray] using assigned⟩

theorem Relinking.step_value {name : String} {v : Val} (s : Relinking copies h target c done fresh h')
    (apart : Apart h target c) (old : target < h.size) (open_ : ¬ done name) (child : c.child name = some v)
    (array : arrayElems? h v = none) :
    Relinking copies h target c (fun key => key = name ∨ done key) fresh (relinkProp copies target h' name) := by
  have read := s.read open_ child
  have arrays := arrayElems_congr (s.value_cell apart child)
  have unchanged : relinkProp copies target h' name =
      if isObject v then assignProp h' target name (copyGetter copies v) else h' := by
    simp [relinkProp, read, arrays, array]
  rw [unchanged]
  split
  · exact s.assign child (by simp [Relinked, array]) open_ old
  · rename_i plain
    apply s.keep _ open_
    intro v' child'
    cases child.symm.trans child'
    cases v with
    | ref a => simp [isObject] at plain
    | undefined => simp [Relinked, array, copyGetter]
    | prim p => simp [Relinked, array, copyGetter]

theorem Relinking.step {name : String} (s : Relinking copies h target c done fresh h') (apart : Apart h target c)
    (old : target < h.size) (open_ : ¬ done name) :
    ∃ fresh', Relinking copies h target c (fun key => key = name ∨ done key) fresh'
      (relinkProp copies target h' name) := by
  cases child : c.child name with
  | none => exact ⟨fresh, s.step_absent open_ child⟩
  | some v =>
    cases array : arrayElems? h v with
    | some elems => exact s.step_array apart old open_ child array
    | none => exact ⟨fresh, s.step_value apart old open_ child array⟩

theorem Relinking.loop (apart : Apart h target c) (old : target < h.size) (props : List String) (nodup : props.Nodup) :
    ∀ {done : String → Prop} {fresh : Nat → Option Nat} {h' : Heap}, Relinking copies h target c done fresh h' →
      (∀ name ∈ props, ¬ done name) →
      ∃ fresh', Relinking copies h target c (fun key => key ∈ props ∨ done key) fresh'
        (props.foldl (relinkProp copies target) h') := by
  induction props with
  | nil =>
    intro done fresh h' s _
    exact ⟨fresh, by simpa using s⟩
  | cons name props ih =>
    intro done fresh h' s open_
    obtain ⟨distinct, nodup⟩ := List.nodup_cons.mp nodup
    obtain ⟨fresh', s'⟩ := s.step apart old (open_ name (by simp))
    obtain ⟨fresh'', s''⟩ := ih nodup s' (by
      intro key member given
      rcases given with rfl | before
      · exact distinct member
      · exact open_ key (List.mem_cons_of_mem _ member) before)
    refine ⟨fresh'', ?_⟩
    have reorder : (fun key => key ∈ name :: props ∨ done key) = fun key => key ∈ props ∨ key = name ∨ done key := by
      funext key
      simp only [List.mem_cons, eq_iff_iff]
      tauto
    rw [reorder]
    exact s''

theorem referencer_spec (copies : Copies) (found : h.cell? target = some c) (apart : Apart h target c) :
    ∃ fresh, Relinking copies h target c (fun _ => True) fresh (c.ownNames.foldl (relinkProp copies target) h) := by
  obtain ⟨fresh, s⟩ := Relinking.loop apart (Heap.cell_bound found) c.ownNames (nodup_ownNames c)
    (Relinking.start found) (by simp)
  obtain ⟨c', at_target, shape, rest, rewritten⟩ := s.rewritten
  refine ⟨fresh, s.size, s.others, ⟨c', at_target, shape, by simp, fun name _ => ?_⟩, s.arrays, s.domain⟩
  by_cases own : name ∈ c.ownNames
  · exact rewritten name (.inl own)
  · rw [rest name (by simpa using own)]
    cases child : c.child name with
    | none => exact .none
    | some v => exact absurd (Cell.mem_ownNames_of_child child) own

end ModelServer.TypeUtil
