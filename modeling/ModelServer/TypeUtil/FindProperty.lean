import ModelServer.TypeUtil.Reading

namespace ModelServer.TypeUtil

open Js

/-- A name that no array lists among its own properties. -/
def IsKey (name : String) : Prop := indexOf? name = none ∧ name ≠ "length"

theorem isKey_eClass : IsKey "eClass" := ⟨by decide, by decide⟩

theorem isKey_type : IsKey "$type" := ⟨by decide, by decide⟩

theorem mem_ownNames_key {c : Cell} {name : String} (key : IsKey name) :
    name ∈ c.ownNames ↔ c.shape = .obj ∧ (c.child name).isSome := by
  cases c with
  | object props => simp [Cell.ownNames, Cell.shape, Cell.child, mem_names]
  | array elems =>
    simp only [Cell.ownNames, List.mem_append, List.mem_map, List.mem_range, List.mem_singleton, Cell.shape,
      reduceCtorEq, false_and, iff_false, not_or]
    refine ⟨?_, key.2⟩
    intro given
    rcases given with ⟨i, -, rfl⟩
    simp [IsKey] at key

def OwnsKey (h : Heap) (root : Val) (name : String) : Prop :=
  ∃ a c, h.Reaches root (.ref a) ∧ h.cell? a = some c ∧ name ∈ c.ownNames

def finderReader (h₀ : Heap) (root : Val) (name : String) (live : ∀ a, h₀.Reaches root (.ref a) → a < h₀.size) :
    Reader (finder name) h₀ root where
  live := live
  Inv w := ∀ a ∈ w.visited, ∀ c, h₀.cell? a = some c → name ∉ c.ownNames
  goal := OwnsKey h₀ root name
  visit {w a c stop heap state} inv _ _ reached _ found called := by
    cases called
    by_cases owns : name ∈ c.ownNames
    · simpa [owns] using ⟨a, c, reached, found, owns⟩
    · simp only [List.contains_eq_mem, owns, decide_false, Bool.false_eq_true, if_false]
      refine ⟨fun b member d at_b => ?_, Nat.le_refl _, by simp⟩
      rcases List.mem_cons.mp member with rfl | member
      · cases found.symm.trans at_b
        exact owns
      · exact inv b member d at_b

theorem findProperty_spec {h₀ : Heap} {root : Val} (name : String)
    (live : ∀ a, h₀.Reaches root (.ref a) → a < h₀.size) {fuel : Nat} (enough : h₀.size < fuel) :
    ∃ found, findProperty fuel h₀ root name = some found ∧ (found = true ↔ OwnsKey h₀ root name) := by
  obtain ⟨found, w, result, outcome⟩ :=
    (finderReader h₀ root name live).returns enough (show ∀ a ∈ ([] : List Nat), _ by simp)
  have returned : traverse (finder name) fuel root ⟨h₀, [], ()⟩ = some (found, w) := result
  refine ⟨found, by simp [findProperty, returned], ?_⟩
  cases found with
  | true => exact ⟨fun _ => outcome, fun _ => rfl⟩
  | false =>
    simp only [Bool.false_eq_true, if_false, false_iff] at outcome ⊢
    intro given
    rcases given with ⟨a, c, reached, at_a, owns⟩
    exact outcome.1.inv a ((outcome.2 a).mpr reached) c at_a owns

theorem ownsKey_denotes {h : Heap} {v : Val} {j : Json} {name : String} (d : h.Denotes v j) (key : IsKey name) :
    OwnsKey h v name ↔ j.HasKey name := by
  constructor
  · intro given
    rcases given with ⟨a, cell, reached, found, owns⟩
    obtain ⟨path, c, at_path, _, denotes⟩ := d.reaches reached
    obtain ⟨object, present⟩ := (mem_ownNames_key key).mp owns
    obtain ⟨w, child⟩ := Option.isSome_iff_exists.mp present
    obtain ⟨c', at_name, _⟩ := denotes.child (show h.child (.ref a) name = some w by simp [found, child])
    obtain ⟨cell', found', shape⟩ := denotes.live
    cases found.symm.trans found'
    exact ⟨path, by simp [Json.shapeAt, at_path, ← shape, object],
      by simp [Json.shapeAt, Json.at_append, at_path, Json.at?, at_name]⟩
  · intro given
    rcases given with ⟨path, object, present⟩
    simp only [Json.shapeAt, Json.at_append] at object present
    cases at_path : j.at? path with
    | none => simp [at_path] at object
    | some c =>
      obtain ⟨w, walked, denotes⟩ := d.walk at_path
      simp only [at_path, Option.map_some, Option.some.injEq, Option.bind_some, Json.at?, Option.isSome_map] at object present
      cases at_name : c.child name with
      | none => simp [at_name] at present
      | some c' =>
        obtain ⟨x, child, _⟩ := denotes.of_child at_name
        cases w with
        | ref a =>
          obtain ⟨cell, found, shape⟩ := denotes.live
          refine ⟨a, cell, (h.reaches_iff_walk v _).mpr ⟨path, walked⟩, found, (mem_ownNames_key key).mpr ⟨?_, ?_⟩⟩
          · rw [shape, object]
          · simp only [Heap.child_ref, found, Option.bind_some] at child
            simp [child]
        | undefined => cases child
        | prim p => cases child

theorem findProperty_denotes {h : Heap} {v : Val} {j : Json} {name : String} (d : h.Denotes v j) (key : IsKey name)
    {fuel : Nat} (enough : h.size < fuel) :
    ∃ found, findProperty fuel h v name = some found ∧ (found = true ↔ j.HasKey name) := by
  obtain ⟨found, result, spec⟩ := findProperty_spec name (fun _ => d.reached_bound) enough
  exact ⟨found, result, spec.trans (ownsKey_denotes d key)⟩

theorem live_of_complete {h : Heap} (complete : h.Complete) {root : Val} (inside : ∀ a, root = .ref a → a < h.size) :
    h.Live root := by
  cases root with
  | ref a => exact complete.live (inside a rfl)
  | undefined =>
    intro a reached
    rcases (h.reaches_iff_walk _ _).mp reached with ⟨path, walked⟩
    cases path <;> cases walked
  | prim p =>
    intro a reached
    rcases (h.reaches_iff_walk _ _).mp reached with ⟨path, walked⟩
    cases path <;> cases walked

theorem ownsKey_iff {h : Heap} {root : Val} {name : String} (key : IsKey name) :
    OwnsKey h root name ↔
      ∃ a props, h.Reaches root (.ref a) ∧ h.cell? a = some (.object props) ∧ (props.lookup name).isSome := by
  constructor
  · intro given
    rcases given with ⟨a, c, reached, found, owns⟩
    rcases (mem_ownNames_key key).mp owns with ⟨object, present⟩
    cases c with
    | array elems => cases object
    | object props => exact ⟨a, props, reached, found, present⟩
  · intro given
    rcases given with ⟨a, props, reached, found, present⟩
    exact ⟨a, _, reached, found, (mem_ownNames_key key).mpr ⟨rfl, present⟩⟩

/-- On any finite heap the search ends, whatever is shared or cyclic, and finds the name just where an object below
    the root has it. -/
theorem findProperty_iff {h : Heap} (complete : h.Complete) {root : Val} (inside : ∀ a, root = .ref a → a < h.size)
    {name : String} (key : name = "eClass" ∨ name = "$type") :
    ∃ found, (∀ fuel, h.size < fuel → findProperty fuel h root name = some found) ∧
      (found = true ↔
        ∃ a props, h.Reaches root (.ref a) ∧ h.cell? a = some (.object props) ∧ (props.lookup name).isSome) := by
  have isKey : IsKey name := by
    rcases key with rfl | rfl
    · exact isKey_eClass
    · exact isKey_type
  have search := fun fuel enough => @findProperty_spec h root name (live_of_complete complete inside) fuel enough
  simp only [ownsKey_iff isKey] at search
  rcases search (h.size + 1) (Nat.lt_succ_self _) with ⟨found, -, spec⟩
  refine ⟨found, fun fuel enough => ?_, spec⟩
  rcases search fuel enough with ⟨found', result, spec'⟩
  have same : found' = found := Bool.eq_iff_iff.mpr (spec'.trans spec.symm)
  rw [result, same]

def ring : Heap where
  cells := [.array [.ref 1], .array [.ref 0, .ref 2], .object [("eClass", .prim (.string "Node")), ("rows", .ref 0)]]

theorem findProperty_ring : ∃ found, (∀ fuel, 3 < fuel → findProperty fuel ring (.ref 0) "eClass" = some found) ∧
    (found = true ↔
      ∃ a props, ring.Reaches (.ref 0) (.ref a) ∧ ring.cell? a = some (.object props) ∧ (props.lookup "eClass").isSome) := by
  refine @findProperty_iff ring (by decide) (.ref 0) ?_ "eClass" (.inl rfl)
  intro a same
  cases same
  decide

end ModelServer.TypeUtil
