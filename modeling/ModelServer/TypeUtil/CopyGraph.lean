import ModelServer.Js.Isomorphism
import ModelServer.TypeUtil.TypeKeys

namespace ModelServer.TypeUtil

open Js

def image (copies : Copies) (a : Nat) : Nat := (copies.lookup a).getD a

theorem mapRef_image (copies : Copies) (v : Val) : Heap.mapRef (image copies) v = copyGetter copies v := by
  cases v with
  | undefined => rfl
  | prim p => rfl
  | ref a =>
    simp only [Heap.mapRef, image, copyGetter]
    cases copies.lookup a <;> rfl

section

variable {format : JsonFormat} {h₀ h₁ h : Heap} {a b : Nat} {copies : Copies} {origin : Nat → Option Nat}
  {visited : List Nat}

theorem Linking.array_cell {root : Val} (s : Linking format h₀ root h₁ copies origin visited h)
    (flat : h₀.NestsNoArray root) {x y : Nat} (known : origin y = some x) (seen : y ∈ visited) :
    ∃ elems, h₀.cell? x = some (.array elems) ∧
      h.cell? y = some (.array (elems.map (Heap.mapRef (image copies)))) := by
  rcases s.new_array known seen with ⟨elems, c', reached, at_x, at_y, shape, replaced⟩
  refine ⟨elems, at_x, ?_⟩
  rw [at_y]
  refine congrArg some (array_ext rfl (by simpa [Cell.shape] using shape) fun name => ?_)
  have related := replaced name
  rw [Heap.child_array]
  generalize c'.child name = v' at related ⊢
  cases source : (Cell.array elems).child name with
  | none =>
    rw [source] at related
    cases related
    rfl
  | some e =>
    rw [source] at related
    cases related with
    | some replacement =>
      have plain : arrayElems? h₀ e = none := by
        by_contra array
        rcases Option.ne_none_iff_exists'.mp array with ⟨elems', array⟩
        rcases arrayElems_eq array with ⟨z, rfl, at_z⟩
        exact flat x z name elems elems' reached at_x (by simp [at_x, source]) at_z
      rw [replacement.copy _ (.inl plain), Option.map_some, mapRef_image]

theorem Linking.corresponds {root : Val} (s : Linking format h₀ root h₁ copies origin visited h)
    (flat : h₀.NestsNoArray root) {v v' : Val} (relinked : Relinked copies h₀ origin v v')
    (seen : ∀ c, v' = .ref c → c ∈ visited) : Heap.Corresponds (image copies) h₀ h v v' := by
  unfold Relinked at relinked
  split at relinked
  · rcases relinked with ⟨x, y, rfl, rfl, known⟩
    rcases s.array_cell flat known (seen y rfl) with ⟨elems, at_x, at_y⟩
    exact .array at_x at_y
  · rename_i plain
    rw [relinked, ← mapRef_image]
    refine .plain fun x elems same found => ?_
    subst same
    rw [arrayElems_of_cell found] at plain
    cases plain

/-- The copy of an object that is reached in the result has the properties that `copyEntries` gives it, relinked. -/
theorem CopyRun.linked_object (run : CopyRun format h₀ a h₁ copies origin visited h b) {x : Nat}
    {props : List (String × Val)} (below : h₀.Reaches (.ref a) (.ref x)) (found : h₀.cell? x = some (.object props))
    (reached : h.Reaches (.ref b) (.ref (image copies x))) (key : String) :
    Option.Rel (Relinked copies h₀ origin)
      ((copyEntries format.foreignKey format.typeKey (inherited h₀ (.object props) format.foreignKey) props).lookup key)
      (h.child (.ref (image copies x)) key) := by
  have seen := run.visited_of_reaches reached _ rfl
  rcases (run.copied.domain x).mp below with ⟨y, copied⟩
  have at_image : image copies x = y := by rw [image, copied, Option.getD_some]
  rw [at_image] at seen ⊢
  rcases run.linking.copyCells x y copied with ⟨c, c', at_x, at_y, content⟩
  cases found.symm.trans at_x
  rw [if_pos seen, copyCell_eq] at content
  rw [Heap.child_ref, at_y, Option.bind_some]
  exact content.2 key

theorem CopyRun.noProto (run : CopyRun format h₀ a h₁ copies origin visited h b) {y : Nat}
    (reached : h.Reaches (.ref b) (.ref y)) : h.child (.ref y) "__proto__" = none := by
  have seen := run.visited_of_reaches reached y rfl
  rcases run.linking.news y seen with ⟨low, high⟩
  have of_none : ∀ {R : Val → Val → Prop} {source : Option Val} {c' : Cell}, h.cell? y = some c' → source = none →
      Option.Rel R source (c'.child "__proto__") → h.child (.ref y) "__proto__" = none := by
    intro R source c' at_y lost related
    subst lost
    rw [Heap.child_ref, at_y, Option.bind_some]
    cases found : c'.child "__proto__" with
    | none => rfl
    | some v =>
      rw [found] at related
      cases related
  by_cases old : y < h₁.size
  · rcases run.copied.covered y low old with ⟨x, copied⟩
    rcases run.linking.copyCells x y copied with ⟨c, c', -, at_y, content⟩
    rw [if_pos seen, copyCell_eq] at content
    exact of_none at_y (lookup_copyEntries_proto (Ne.symm format.proto_ne.2)) (content.2 "__proto__")
  · rcases run.linking.fresh y (Nat.le_of_not_lt old) high with ⟨x, known⟩
    rcases run.linking.new_array known seen with ⟨elems, c', -, -, at_y, -, replaced⟩
    have word : indexOf? "__proto__" = none := by decide
    exact of_none at_y (by rw [Cell.child, word, Option.bind_none]) (replaced "__proto__")

theorem CopyRun.matches (run : CopyRun format h₀ a h₁ copies origin visited h b) (flat : h₀.NestsNoArray (.ref a))
    {x : Nat} (object : x ∈ h₀.objects (.ref a)) (untyped : h₀.child (.ref x) format.typeKey = none)
    (plain : h₀.child (.ref x) "__proto__" = none) (reached : h.Reaches (.ref b) (.ref (image copies x))) :
    Heap.Matches (renamedKey format) (image copies) h₀ h x := by
  rcases object with ⟨below, props, found⟩
  have source (name : String) : h₀.child (.ref x) name = props.lookup name := by
    rw [Heap.child_ref, found, Option.bind_some, Cell.child]
  rw [source] at untyped plain
  have inherits : inherited h₀ (.object props) format.foreignKey = none := by
    rw [inherited, Cell.child, plain]
    rfl
  have linked (key : String) : Option.Rel (Relinked copies h₀ origin) (moved format props key)
      (h.child (.ref (image copies x)) key) := by
    have related := run.linked_object below found reached key
    rwa [inherits, lookup_copyEntries_plain untyped plain] at related
  refine ⟨fun name v edge => ?_, fun name' v' edge' => ?_⟩
  · rw [source] at edge
    have related := linked (renamedKey format name)
    rw [moved_renamedKey untyped edge] at related
    cases edge' : h.child (.ref (image copies x)) (renamedKey format name) with
    | none =>
      rw [edge'] at related
      cases related
    | some v' =>
      rw [edge'] at related
      cases related with
      | some relinked =>
        have arrived := run.visited_of_reaches (.child reached edge')
        exact ⟨v', rfl, run.linking.corresponds flat relinked arrived⟩
  · have related := linked name'
    rw [edge'] at related
    cases renamed : moved format props name' with
    | none =>
      rw [renamed] at related
      cases related
    | some v =>
      rcases of_moved renamed with ⟨name, present, same⟩
      exact ⟨name, v, (source name).trans present, same⟩

def flatRank (flat : h₀.NestsNoArray (.ref a)) : ArrayRank h₀ (.ref a) where
  rank _ := 0
  bound := 0
  le_bound _ := Nat.le_refl 0
  decreases {x y name elems elems'} reached found edge found' := absurd found' (flat x y name elems elems' reached found edge)

theorem CopyRun.isomorphic (run : CopyRun format h₀ a h₁ copies origin visited h b) (live : h₀.Live (.ref a))
    {props : List (String × Val)} (object : h₀.cell? a = some (.object props)) (flat : h₀.NestsNoArray (.ref a))
    (untyped : ∀ x ∈ h₀.objects (.ref a), h₀.child (.ref x) format.typeKey = none)
    (plain : ∀ x ∈ h₀.objects (.ref a), h₀.child (.ref x) "__proto__" = none) :
    Heap.Isomorphism (renamedKey format) (image copies) h₀ (.ref a) h (.ref (image copies a)) := by
  have copied : ∀ x ∈ h₀.objects (.ref a), copies.lookup x = some (image copies x) := by
    intro x member
    rcases (run.copied.domain x).mp member.1 with ⟨y, found⟩
    rw [image, found, Option.getD_some]
  have root : image copies a = b := by rw [image, run.found, Option.getD_some]
  refine Heap.isomorphism_of_matches ⟨.root, props, object⟩ live flat ?injective ?images ?each
  case injective =>
    intro x member y member' same
    exact run.copied.injective x y _ (copied x member) (by rw [same, copied y member'])
  case images =>
    intro x member
    rcases run.linking.copy_shape (copied x member) with ⟨c, found, shape⟩
    cases c with
    | object props' => exact ⟨props', found⟩
    | array elems => cases shape
  case each =>
    intro x member reached
    rw [root] at reached
    exact run.matches flat member (untyped x member) (plain x member) reached

/-- The copy of a graph of objects, shared or cyclic, is isomorphic to it on its objects, exactly where no object has
    an own property `__proto__`. -/
theorem copy_isomorphic_iff (format : JsonFormat) {h : Heap} (complete : h.Complete) {a : Nat}
    {props : List (String × Val)} (object : h.cell? a = some (.object props)) (flat : h.NestsNoArray (.ref a))
    (untyped : ∀ x ∈ h.objects (.ref a), h.child (.ref x) format.typeKey = none) {fuel : Nat}
    (enough : 2 * h.size < fuel) :
    (∃ h' f, copy fuel h (.ref a) format = some (h', .ref (f a)) ∧
      Heap.Isomorphism (renamedKey format) f h (.ref a) h' (.ref (f a))) ↔
    ∀ x ∈ h.objects (.ref a), h.child (.ref x) "__proto__" = none := by
  have live : h.Live (.ref a) := complete.live (Heap.cell_bound object)
  have fueled : h.size * ((flatRank flat).bound + 2) < fuel := by
    simp only [flatRank]
    omega
  rcases copy_spec format live (flatRank flat) fueled with ⟨h₁, copies, origin, visited, h', b, returned, run⟩
  constructor
  · intro given x member
    rcases given with ⟨h'', f, returned', isomorphism⟩
    cases returned.symm.trans returned'
    cases lost : h.child (.ref x) "__proto__" with
    | none => rfl
    | some v =>
      rcases (isomorphism.each x member).kept _ v lost with ⟨v', kept, -⟩
      rw [renamedKey, if_neg format.proto_ne.1, run.noProto (isomorphism.bijective.mapsTo member).1] at kept
      cases kept
  · intro plain
    have root : image copies a = b := by rw [image, run.found, Option.getD_some]
    exact ⟨h', image copies, by rw [root, returned], run.isomorphic live object flat untyped plain⟩

def taskCycle : Heap where
  cells := [.object [("eClass", .prim (.string "Task")), ("next", .ref 1), ("all", .ref 2)],
    .object [("previous", .ref 0)], .array [.ref 1, .prim .null, .ref 1]]

theorem taskCycle_array {x : Nat} {elems : List Val} (found : taskCycle.cell? x = some (.array elems)) : x = 2 := by
  have bound : x < 3 := Heap.cell_bound found
  have cases : x = 0 ∨ x = 1 ∨ x = 2 := by omega
  rcases cases with rfl | rfl | rfl
  · cases found
  · cases found
  · rfl

theorem copy_isomorphic_taskCycle : ∃ h' f, copy 7 taskCycle (.ref 0) .jsonV2 = some (h', .ref (f 0)) ∧
    Heap.Isomorphism (renamedKey .jsonV2) f taskCycle (.ref 0) h' (.ref (f 0)) := by
  have flat : taskCycle.NestsNoArray (.ref 0) := by
    intro x y name elems elems' _ found edge found'
    rw [taskCycle_array found, taskCycle_array found'] at edge
    have member := Cell.mem_references_of_child (show (Cell.array [.ref 1, .prim .null, .ref 1]).child name =
      some (.ref 2) from edge)
    exact absurd member (by decide)
  have each : ∀ x ∈ taskCycle.objects (.ref 0),
      taskCycle.child (.ref x) "$type" = none ∧ taskCycle.child (.ref x) "__proto__" = none := by
    intro x member
    rcases member with ⟨-, props, found⟩
    have bound : x < 3 := Heap.cell_bound found
    have cases : x = 0 ∨ x = 1 ∨ x = 2 := by omega
    rcases cases with rfl | rfl | rfl <;> exact ⟨rfl, rfl⟩
  refine (copy_isomorphic_iff .jsonV2 (by decide) rfl flat (fun x member => (each x member).1) (by decide)).mpr ?_
  exact fun x member => (each x member).2

/-- A task with an own property `__proto__`, as a parsed text may have one. -/
def prototyped : Heap where
  cells := [.object [("eClass", .prim (.string "Task")), ("__proto__", .ref 1)], .object [("name", .prim (.string "Brew"))]]

theorem copy_prototyped :
    prototyped.Complete ∧ prototyped.NestsNoArray (.ref 0) ∧
    (∀ x ∈ prototyped.objects (.ref 0), prototyped.child (.ref x) "$type" = none) ∧
    ¬ ∃ h' f, copy 5 prototyped (.ref 0) .jsonV2 = some (h', .ref (f 0)) ∧
      Heap.Isomorphism (renamedKey .jsonV2) f prototyped (.ref 0) h' (.ref (f 0)) := by
  have small : ∀ {x c}, prototyped.cell? x = some c → x = 0 ∨ x = 1 := by
    intro x c found
    have bound : x < 2 := Heap.cell_bound found
    omega
  refine ⟨by decide, ?_, ?_, ?_⟩
  · intro x y name elems elems' _ found
    rcases small found with rfl | rfl <;> cases found
  · intro x member
    rcases member with ⟨-, props, found⟩
    rcases small found with rfl | rfl <;> rfl
  · intro given
    rcases given with ⟨h', f, returned, isomorphism⟩
    have result : copy 5 prototyped (.ref 0) .jsonV2 =
        some (⟨prototyped.cells ++ [.object [("$type", .prim (.string "Task"))], .object [("name", .prim (.string "Brew"))]]⟩,
          .ref 2) := by decide
    have values := Option.some.inj (result.symm.trans returned)
    have image := Val.ref.inj (congrArg Prod.snd values)
    have heap := congrArg Prod.fst values
    subst heap
    rcases (isomorphism.each 0 ⟨.root, _, rfl⟩).kept "__proto__" (.ref 1) rfl with ⟨v', kept, -⟩
    rw [← image] at kept
    cases kept

end

end ModelServer.TypeUtil
