import ModelServer.Js.Ownership

namespace Js

namespace Heap

def Within (h : Heap) (cells : Nat → Prop) (v : Val) : Prop := ∀ a, v = .ref a → cells a ∧ a < h.size

def OperationWithin (h : Heap) (cells : Nat → Prop) : Operation Val → Prop
  | .add _ x | .replace _ x | .test _ x => h.Within cells x
  | .remove _ | .move _ _ | .copy _ _ | .invalid => True

/-- Cells that only refer to each other, the cells to come among them. -/
structure Region (h : Heap) (cells : Nat → Prop) : Prop where
  closed : ∀ a name b, cells a → h.child (.ref a) name = some (.ref b) → cells b ∧ b < h.size
  fresh : ∀ a, h.size ≤ a → cells a

/-- What is done inside a region: it is one afterwards, and nothing else is changed. -/
structure Inside (cells : Nat → Prop) (h h' : Heap) : Prop where
  region : h'.Region cells
  keeps : Keeps (fun a => ¬ cells a) h h'

section Values

variable {h h' : Heap} {cells : Nat → Prop} {v w x : Val}

theorem within_prim (h : Heap) (cells : Nat → Prop) (p : Prim) : h.Within cells (.prim p) := fun _ same => by cases same

theorem within_ref {a : Nat} (inside : cells a) (bound : a < h.size) : h.Within cells (.ref a) := by
  rintro b same
  cases same
  exact ⟨inside, bound⟩

theorem Within.later (within : h.Within cells v) (size : h.size ≤ h'.size) : h'.Within cells v :=
  fun a same => ⟨(within a same).1, (within a same).2.trans_le size⟩

theorem OperationWithin.later {op : Operation Val} (within : h.OperationWithin cells op) (size : h.size ≤ h'.size) :
    h'.OperationWithin cells op := by
  cases op with
  | add path x | replace path x | test path x => exact Within.later within size
  | remove | move | copy | invalid => trivial

theorem Region.new (h : Heap) : h.Region (h.size ≤ ·) := by
  refine ⟨fun a name b inside edge => ?_, fun a inside => inside⟩
  rw [child_ref] at edge
  rcases Option.bind_eq_some_iff.mp edge with ⟨cell, found, -⟩
  exact absurd inside (Nat.not_le_of_lt (cell_bound found))

theorem Region.child (region : h.Region cells) {name : String} (within : h.Within cells v)
    (edge : h.child v name = some w) : h.Within cells w := by
  cases v with
  | undefined => cases edge
  | prim p => cases edge
  | ref a =>
    intro b same
    subst same
    exact region.closed a name b (within a rfl).1 edge

theorem Region.walk (region : h.Region cells) {path : List String} (within : h.Within cells v)
    (walked : h.walk v path = some w) : h.Within cells w := by
  induction path generalizing v with
  | nil =>
    cases walked
    exact within
  | cons name path ih =>
    rw [Heap.walk] at walked
    rcases Option.bind_eq_some_iff.mp walked with ⟨u, edge, rest⟩
    exact ih (region.child within edge) rest

theorem Region.reaches (region : h.Region cells) (within : h.Within cells v) (reached : h.Reaches v w) :
    h.Within cells w := by
  induction reached with
  | root => exact within
  | child _ edge ih => exact region.child ih edge

theorem Region.alloc (region : h.Region cells) {c : Cell} (children : ∀ name w, c.child name = some w → h.Within cells w) :
    (h.alloc c).1.Region cells := by
  constructor
  · intro a name b inside edge
    rw [child_ref, cell_alloc] at edge
    rw [size_alloc]
    split at edge
    · rcases children name _ edge b rfl with ⟨inside, bound⟩
      exact ⟨inside, by omega⟩
    · rcases region.closed a name b inside edge with ⟨inside, bound⟩
      exact ⟨inside, by omega⟩
  · intro a bound
    rw [size_alloc] at bound
    exact region.fresh a (by omega)

theorem Region.write (region : h.Region cells) {a : Nat} {c : Cell} (found : a < h.size)
    (children : ∀ name w, c.child name = some w → h.Within cells w) : (h.write a c).Region cells := by
  constructor
  · intro b name d inside edge
    rw [size_write]
    by_cases here : b = a
    · rw [here, child_ref, cell_write _ _ _ _ found, if_pos rfl] at edge
      exact children name _ edge d rfl
    · rw [child_write_other here] at edge
      exact region.closed b name d inside edge
  · intro b bound
    rw [size_write] at bound
    exact region.fresh b bound

theorem Inside.refl (region : h.Region cells) : Inside cells h h := ⟨region, .refl _ h⟩

theorem Inside.trans {h'' : Heap} (first : Inside cells h h') (second : Inside cells h' h'') : Inside cells h h'' :=
  ⟨second.region, first.keeps.trans second.keeps⟩

theorem Inside.alloc (region : h.Region cells) {c : Cell} (children : ∀ name w, c.child name = some w → h.Within cells w) :
    Inside cells h (h.alloc c).1 := by
  refine ⟨region.alloc children, by simp, ?_⟩
  intro a outside
  rw [cell_alloc, if_neg]
  intro new
  exact outside (region.fresh a new.ge)

theorem Region.within_alloc (region : h.Region cells) (c : Cell) : (h.alloc c).1.Within cells (.ref (h.alloc c).2) :=
  within_ref (region.fresh _ le_rfl) (by simp)

end Values

section Stores

variable {cells : Nat → Prop}

theorem storeElems_inside {js : List Json}
    (each : ∀ j ∈ js, ∀ h : Heap, h.Region cells → Inside cells h (store h j).1 ∧ (store h j).1.Within cells (store h j).2) :
    ∀ {h : Heap}, h.Region cells →
      Inside cells h (storeElems h js).1 ∧ ∀ v ∈ (storeElems h js).2, (storeElems h js).1.Within cells v := by
  induction js with
  | nil => exact fun region => ⟨.refl region, fun _ member => by cases member⟩
  | cons j js ih =>
    intro h region
    rcases each j List.mem_cons_self h region with ⟨first, within⟩
    rcases ih (fun j' member => each j' (.tail _ member)) first.region with ⟨rest, others⟩
    exact ⟨first.trans rest, List.forall_mem_cons.mpr ⟨within.later rest.keeps.size, others⟩⟩

theorem store_inside (j : Json) : ∀ h : Heap, h.Region cells →
    Inside cells h (store h j).1 ∧ (store h j).1.Within cells (store h j).2 := by
  induction j using Json.induct with
  | prim p => exact fun h region => ⟨.refl region, within_prim h cells p⟩
  | arr elems ih =>
    intro h region
    rcases storeElems_inside ih region with ⟨inside, within⟩
    have children : ∀ name w, (Cell.array (storeElems h elems).2).child name = some w →
        (storeElems h elems).1.Within cells w :=
      fun name w edge => within w (Cell.mem_values_of_child edge)
    exact ⟨inside.trans (.alloc inside.region children), inside.region.within_alloc _⟩
  | obj props ih =>
    intro h region
    have each : ∀ j ∈ props.map Prod.snd, ∀ h : Heap, h.Region cells →
        Inside cells h (store h j).1 ∧ (store h j).1.Within cells (store h j).2 := by
      intro j member
      rcases List.mem_map.mp member with ⟨entry, listed, rfl⟩
      exact ih entry listed
    rcases storeElems_inside each region with ⟨inside, within⟩
    have children : ∀ name w, (Cell.object (storeProps h props).2).child name = some w →
        (storeProps h props).1.Within cells w := by
      intro name w edge
      rw [storeProps_eq] at edge ⊢
      exact within w (List.of_mem_zip (mem_of_lookup edge)).2
    have kept : Inside cells h (storeProps h props).1 := by
      rw [storeProps_eq]
      exact inside
    exact ⟨kept.trans (.alloc kept.region children), kept.region.within_alloc _⟩

theorem deepClone_inside {h h' : Heap} {v w : Val} (region : h.Region cells) (cloned : h.deepClone v = some (h', w)) :
    Inside cells h h' ∧ h'.Within cells w := by
  have stored {v : Val} (cloned : (h.document v).map (store h) = some (h', w)) : Inside cells h h' ∧ h'.Within cells w := by
    rcases Option.map_eq_some_iff.mp cloned with ⟨j, -, same⟩
    have inside := store_inside j h region
    rwa [same] at inside
  cases v with
  | undefined =>
    cases cloned
    exact ⟨.refl region, within_prim h cells .null⟩
  | prim p =>
    rw [deepClone] at cloned
    · exact stored cloned
    · exact fun same => by cases same
  | ref a =>
    rw [deepClone] at cloned
    · exact stored cloned
    · exact fun same => by cases same

end Stores

section Patches

variable {h h' : Heap} {cells : Nat → Prop} {v v' x : Val}

theorem edit_inside (region : h.Region cells) {e : Edit} {name : String} {path : List String} (within : h.Within cells v)
    (value : h.Within cells x) (edited : edit e name x h v path = some h') : Inside cells h h' := by
  rcases edit_eq_some edited with ⟨a, cell, n, target, found, applied, rfl⟩
  have at_a := region.walk within (walk_of_target target)
  have children : ∀ key w, n.toCell.child key = some w → h.Within cells w := by
    intro key w edge
    rw [Node.child_toCell, Edit.child_apply applied] at edge
    cases origin : e.origin cell.node.length? name key with
    | inserted =>
      rw [origin] at edge
      cases edge
      exact value
    | kept k =>
      rw [origin] at edge
      have before : h.child (.ref a) k = some w := by
        rw [child_ref, found, Option.bind_some, ← Cell.child_node]
        exact edge
      exact region.child at_a before
    | absent =>
      rw [origin] at edge
      cases edge
  exact ⟨region.write (cell_bound found) children, .write (not_not_intro (at_a a rfl).1) _⟩

theorem change_inside (region : h.Region cells) {e : Edit} {tokens : List String} (within : h.Within cells v)
    (value : h.Within cells x) (changed : change e x h v tokens = some (h', v')) :
    Inside cells h h' ∧ h'.Within cells v' := by
  unfold change at changed
  split at changed
  · cases changed
    exact ⟨.refl region, value⟩
  · rcases Option.map_eq_some_iff.mp changed with ⟨h'', edited, same⟩
    cases same
    have inside := edit_inside region within value edited
    exact ⟨inside, within.later inside.keeps.size⟩

/-- What an operation or a patch does stays inside the region, and so does the document it leaves. -/
def Stays (h : Heap) (cells : Nat → Prop) (applied : Applied) : Prop :=
  Inside cells h applied.1 ∧ ∀ v, applied.2 = some v → applied.1.Within cells v

theorem Stays.failed (region : h.Region cells) : h.Stays cells (h, none) := ⟨.refl region, fun _ none => by cases none⟩

theorem Stays.done (inside : Inside cells h h') (within : h'.Within cells v) : h.Stays cells (h', some v) :=
  ⟨inside, fun _ same => by cases same; exact within⟩

theorem Stays.after {applied : Applied} (first : Inside cells h h') (rest : h'.Stays cells applied) : h.Stays cells applied :=
  ⟨first.trans rest.1, rest.2⟩

theorem Stays.orFail (region : h.Region cells) {result : Option (Heap × Val)}
    (each : ∀ h' v', result = some (h', v') → Inside cells h h' ∧ h'.Within cells v') :
    h.Stays cells (orFail h result) := by
  cases result with
  | none => exact .failed region
  | some result =>
    rcases each result.1 result.2 rfl with ⟨inside, within⟩
    exact .done inside within

theorem moveTo_stays (region : h.Region cells) (within : h.Within cells v) (value : h.Within cells x)
    (source target : List String) : h.Stays cells (moveTo h v x source target) := by
  unfold moveTo
  split
  · exact .done (.refl region) value
  · split
    · exact .failed region
    · split
      · exact .failed region
      · rename_i h₁ v₁ removed
        rcases change_inside region within (within_prim h cells .null) removed with ⟨first, within₁⟩
        refine .after first (.orFail first.region fun h' v' inserted => ?_)
        exact change_inside first.region within₁ (value.later first.keeps.size) inserted

theorem applyOperation_stays (region : h.Region cells) (within : h.Within cells v) {op : Operation Val}
    (values : h.OperationWithin cells op) : h.Stays cells (h.applyOperation v op) := by
  cases op with
  | add path x =>
    refine .orFail region fun h' v' applied => ?_
    rcases Option.bind_eq_some_iff.mp applied with ⟨target, -, changed⟩
    exact change_inside region within values changed
  | remove path =>
    refine .orFail region fun h' v' applied => ?_
    rcases Option.bind_eq_some_iff.mp applied with ⟨target, -, changed⟩
    exact change_inside region within (within_prim h cells .null) changed
  | replace path x =>
    refine .orFail region fun h' v' applied => ?_
    rcases Option.bind_eq_some_iff.mp applied with ⟨target, -, changed⟩
    exact change_inside region within values changed
  | move source path =>
    rw [applyOperation]
    split
    · split
      · rename_i x walked
        exact moveTo_stays region within (region.walk within walked) _ _
      · exact .failed region
    · exact .failed region
  | copy source path =>
    refine .orFail region fun h' v' applied => ?_
    rcases Option.bind_eq_some_iff.mp applied with ⟨source, -, applied⟩
    rcases Option.bind_eq_some_iff.mp applied with ⟨target, -, applied⟩
    rcases Option.bind_eq_some_iff.mp applied with ⟨x, walked, applied⟩
    rcases Option.bind_eq_some_iff.mp applied with ⟨⟨h₁, y⟩, cloned, changed⟩
    rcases deepClone_inside region cloned with ⟨first, value⟩
    rcases change_inside first.region (within.later first.keeps.size) value changed with ⟨second, within'⟩
    exact ⟨first.trans second, within'⟩
  | test path x =>
    refine .orFail region fun h' v' applied => ?_
    rcases Option.bind_eq_some_iff.mp applied with ⟨target, -, applied⟩
    rcases Option.bind_eq_some_iff.mp applied with ⟨y, -, applied⟩
    rcases Option.bind_eq_some_iff.mp applied with ⟨tree, -, applied⟩
    rcases Option.bind_eq_some_iff.mp applied with ⟨tree', -, applied⟩
    split at applied
    · cases applied
      exact ⟨.refl region, within⟩
    · cases applied
  | invalid => exact .failed region

theorem applyOperations_stays {ops : List (Operation Val)} (region : h.Region cells) (within : h.Within cells v)
    (values : ∀ op ∈ ops, h.OperationWithin cells op) : h.Stays cells (h.applyOperations v ops) := by
  induction ops generalizing h v with
  | nil => exact .done (.refl region) within
  | cons op ops ih =>
    have first := applyOperation_stays region within (values op List.mem_cons_self)
    rw [applyOperations]
    split
    · rename_i h₁ v₁ applied
      rw [applied] at first
      refine .after first.1 (ih first.1.region (first.2 v₁ rfl) ?_)
      exact fun op' member => (values op' (.tail _ member)).later first.1.keeps.size
    · rename_i h₁ applied
      rw [applied] at first
      exact first

theorem ofChild_within (region : h.Region cells) {op : Val} (within : h.Within cells op) :
    h.OperationWithin cells (Operation.ofChild (h.child op) string?) := by
  have value {build : Val → Operation Val} (each : ∀ x, h.Within cells x → h.OperationWithin cells (build x)) :
      h.OperationWithin cells (((h.child op "value").map build).getD .invalid) := by
    cases edge : h.child op "value" with
    | none => trivial
    | some x => exact each x (region.child within edge)
  have source {build : String → Operation Val} (each : ∀ s, h.OperationWithin cells (build s)) :
      h.OperationWithin cells ((((h.child op "from").bind string?).map build).getD .invalid) := by
    cases (h.child op "from").bind string? with
    | none => trivial
    | some s => exact each s
  unfold Operation.ofChild
  split
  · split_ifs
    · trivial
    · exact value fun x within => within
    · exact value fun x within => within
    · exact value fun x within => within
    · exact source fun s => trivial
    · exact source fun s => trivial
    · trivial
  · trivial

theorem operations_within (region : h.Region cells) {patch : Val} (within : h.Within cells patch) :
    ∀ op ∈ h.operations patch, h.OperationWithin cells op := by
  intro op member
  unfold operations at member
  split at member
  · rename_i a
    split at member
    · rename_i elems found
      rcases List.mem_map.mp member with ⟨v, listed, rfl⟩
      rcases List.getElem?_of_mem listed with ⟨i, at_i⟩
      have edge : h.child (.ref a) (indexName i) = some v := by simp [found, Cell.child, at_i]
      exact ofChild_within region (region.child within edge)
    · cases member
  · cases member

/-- A patched document consists of cells of the region, when the document and the patch do. -/
theorem applyPatch_stays (region : h.Region cells) {patch : Val} (within : h.Within cells v)
    (held : h.Within cells patch) : h.Stays cells (h.applyPatch v patch) :=
  applyOperations_stays region within (operations_within region held)

end Patches

end Heap

end Js
