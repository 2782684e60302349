import ModelServer.Js.Heap
import Mathlib.Data.Set.Function

namespace Js.Heap

def objects (h : Heap) (root : Val) : Set Nat := {a | h.Reaches root (.ref a) ∧ ∃ props, h.cell? a = some (.object props)}

/-- No array that the root reaches is directly an element of an array. -/
def NestsNoArray (h : Heap) (root : Val) : Prop :=
  ∀ a b name elems elems', h.Reaches root (.ref a) → h.cell? a = some (.array elems) →
    h.child (.ref a) name = some (.ref b) → h.cell? b ≠ some (.array elems')

def mapRef (f : Nat → Nat) : Val → Val
  | .ref a => .ref (f a)
  | v => v

/-- An object stands for its image, an array for an array of the images of its elements in their order. -/
inductive Corresponds (f : Nat → Nat) (h h' : Heap) : Val → Val → Prop
  | plain {v : Val} (notArray : ∀ a elems, v = .ref a → h.cell? a ≠ some (.array elems)) :
      Corresponds f h h' v (mapRef f v)
  | array {a b : Nat} {elems : List Val} (found : h.cell? a = some (.array elems))
      (found' : h'.cell? b = some (.array (elems.map (mapRef f)))) : Corresponds f h h' (.ref a) (.ref b)

/-- The image of an object has its properties and no others, under the keys that `key` gives. -/
structure Matches (key : String → String) (f : Nat → Nat) (h h' : Heap) (a : Nat) : Prop where
  kept : ∀ name v, h.child (.ref a) name = some v →
    ∃ v', h'.child (.ref (f a)) (key name) = some v' ∧ Corresponds f h h' v v'
  only : ∀ name' v', h'.child (.ref (f a)) name' = some v' → ∃ name v, h.child (.ref a) name = some v ∧ key name = name'

/-- The graphs below two roots are the same on their objects, up to the names of the cells and `key`. -/
structure Isomorphism (key : String → String) (f : Nat → Nat) (h : Heap) (root : Val) (h' : Heap) (root' : Val) :
    Prop where
  roots : root' = mapRef f root
  bijective : Set.BijOn f (h.objects root) (h'.objects root')
  each : ∀ a ∈ h.objects root, Matches key f h h' a

section Correspondence

variable {key : String → String} {f : Nat → Nat} {h h' : Heap} {root v v' : Val} {a : Nat}

theorem Corresponds.eq_of_object {props : List (String × Val)} (c : Corresponds f h h' (.ref a) v')
    (found : h.cell? a = some (.object props)) : v' = .ref (f a) := by
  cases c with
  | plain notArray => rfl
  | array found' => cases found.symm.trans found'

theorem Corresponds.eq_of_array {elems : List Val} (c : Corresponds f h h' (.ref a) v')
    (found : h.cell? a = some (.array elems)) :
    ∃ b, v' = .ref b ∧ h'.cell? b = some (.array (elems.map (mapRef f))) := by
  cases c with
  | plain notArray => exact absurd found (notArray a elems rfl)
  | @array _ b elems' found' copied =>
    cases found.symm.trans found'
    exact ⟨b, rfl, copied⟩

theorem child_array (elems : List Val) (f : Val → Val) (name : String) :
    (Cell.array (elems.map f)).child name = ((Cell.array elems).child name).map f := by
  simp only [Cell.child]
  cases indexOf? name with
  | none => rfl
  | some i => simp

theorem element_corresponds (flat : h.NestsNoArray root) (reached : h.Reaches root (.ref a)) {elems : List Val}
    (found : h.cell? a = some (.array elems)) {name : String} (element : h.child (.ref a) name = some v) :
    Corresponds f h h' v (mapRef f v) := by
  refine .plain fun b elems' same => ?_
  subst same
  exact flat a b name elems elems' reached found element

end Correspondence

section Reachability

variable {key : String → String} {f : Nat → Nat} {h h' : Heap} {root root' : Val}

theorem reaches_image (live : h.Live root) (flat : h.NestsNoArray root) (start : Corresponds f h h' root root')
    (each : ∀ a ∈ h.objects root, h'.Reaches root' (.ref (f a)) → Matches key f h h' a) {v : Val}
    (reached : h.Reaches root v) : ∃ v', h'.Reaches root' v' ∧ Corresponds f h h' v v' := by
  induction reached with
  | root => exact ⟨root', .root, start⟩
  | @child v w name previous edge ih =>
    rcases ih with ⟨v', reached', corresponds⟩
    cases v with
    | undefined => cases edge
    | prim p => cases edge
    | ref a =>
      rcases cell_exists (live a previous) with ⟨c, found⟩
      cases c with
      | object props =>
        have image := corresponds.eq_of_object found
        subst image
        rcases (each a ⟨previous, props, found⟩ reached').kept name w edge with ⟨w', edge', related⟩
        exact ⟨w', .child reached' edge', related⟩
      | array elems =>
        rcases corresponds.eq_of_array found with ⟨b, rfl, found'⟩
        have edge' : h'.child (.ref b) name = some (mapRef f w) := by
          rw [child_ref, found, Option.bind_some] at edge
          rw [child_ref, found', Option.bind_some, child_array, edge, Option.map_some]
        exact ⟨mapRef f w, .child reached' edge', element_corresponds flat previous found edge⟩

theorem reaches_source (live : h.Live root) (flat : h.NestsNoArray root) (start : Corresponds f h h' root root')
    (each : ∀ a ∈ h.objects root, h'.Reaches root' (.ref (f a)) → Matches key f h h' a) {v' : Val}
    (reached' : h'.Reaches root' v') : ∃ v, h.Reaches root v ∧ Corresponds f h h' v v' := by
  induction reached' with
  | root => exact ⟨root, .root, start⟩
  | @child v' w' name' previous' edge' ih =>
    rcases ih with ⟨v, reached, corresponds⟩
    cases v with
    | undefined =>
      cases corresponds
      cases edge'
    | prim p =>
      cases corresponds
      cases edge'
    | ref a =>
      rcases cell_exists (live a reached) with ⟨c, found⟩
      cases c with
      | object props =>
        have image := corresponds.eq_of_object found
        subst image
        have here := each a ⟨reached, props, found⟩ previous'
        rcases here.only name' w' edge' with ⟨name, w, edge, rfl⟩
        rcases here.kept name w edge with ⟨w'', edge'', related⟩
        cases edge'.symm.trans edge''
        exact ⟨w, .child reached edge, related⟩
      | array elems =>
        rcases corresponds.eq_of_array found with ⟨b, rfl, found'⟩
        rw [child_ref, found', Option.bind_some, child_array, Option.map_eq_some_iff] at edge'
        rcases edge' with ⟨w, element, rfl⟩
        have edge : h.child (.ref a) name' = some w := by rw [child_ref, found, Option.bind_some, element]
        exact ⟨w, .child reached edge, element_corresponds flat reached found edge⟩

/-- Images that are injective and match where they are reached make an isomorphism. -/
theorem isomorphism_of_matches {a₀ : Nat} (object : a₀ ∈ h.objects (.ref a₀)) (live : h.Live (.ref a₀))
    (flat : h.NestsNoArray (.ref a₀)) (injective : Set.InjOn f (h.objects (.ref a₀)))
    (images : ∀ a ∈ h.objects (.ref a₀), ∃ props, h'.cell? (f a) = some (.object props))
    (each : ∀ a ∈ h.objects (.ref a₀), h'.Reaches (.ref (f a₀)) (.ref (f a)) → Matches key f h h' a) :
    Isomorphism key f h (.ref a₀) h' (.ref (f a₀)) := by
  have start : Corresponds f h h' (.ref a₀) (.ref (f a₀)) := by
    rcases object with ⟨-, props, found⟩
    refine .plain fun a elems same array => ?_
    cases same
    cases found.symm.trans array
  have reached : ∀ a ∈ h.objects (.ref a₀), h'.Reaches (.ref (f a₀)) (.ref (f a)) := by
    intro a member
    rcases reaches_image live flat start each member.1 with ⟨v', reached', corresponds⟩
    rcases member with ⟨-, props, found⟩
    rwa [← corresponds.eq_of_object found]
  refine ⟨rfl, ⟨fun a member => ⟨reached a member, images a member⟩, injective, ?_⟩,
    fun a member => each a member (reached a member)⟩
  intro b given
  rcases given with ⟨reached', props', found'⟩
  rcases reaches_source live flat start each reached' with ⟨v, reached, corresponds⟩
  cases v with
  | undefined => cases corresponds
  | prim p => cases corresponds
  | ref a =>
    rcases cell_exists (live a reached) with ⟨c, found⟩
    cases c with
    | object props =>
      refine ⟨a, ⟨reached, props, found⟩, ?_⟩
      exact (Val.ref.inj (corresponds.eq_of_object found)).symm
    | array elems =>
      rcases corresponds.eq_of_array found with ⟨b', same, array⟩
      cases same
      cases found'.symm.trans array

end Reachability

end Js.Heap
