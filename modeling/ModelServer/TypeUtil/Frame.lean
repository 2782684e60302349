import ModelServer.Js.Isomorphism
import ModelServer.Library.Relations
import ModelServer.TypeUtil.Encoding

namespace ModelServer.TypeUtil

open Js

def ArrayEdge (h : Heap) (a b : Nat) : Prop :=
  ∃ elems elems' name, h.cell? a = some (.array elems) ∧ h.child (.ref a) name = some (.ref b) ∧
    h.cell? b = some (.array elems')

def Typed (format : JsonFormat) (h : Heap) (root : Val) : Prop :=
  ∃ x ∈ h.objects root, (h.child (.ref x) format.typeKey).isSome

theorem ownsKey_iff_typed (format : JsonFormat) (h : Heap) (root : Val) :
    OwnsKey h root format.typeKey ↔ Typed format h root := by
  rw [ownsKey_iff (isKey_typeKey format)]
  constructor
  · intro given
    rcases given with ⟨x, props, reached, found, present⟩
    exact ⟨x, ⟨reached, props, found⟩, by rwa [Heap.child_ref, found, Option.bind_some]⟩
  · intro given
    rcases given with ⟨x, ⟨reached, props, found⟩, present⟩
    rw [Heap.child_ref, found, Option.bind_some] at present
    exact ⟨x, props, reached, found, present⟩

variable {h : Heap}

noncomputable def heightRank (complete : h.Complete) (acyclic : Relations.Acyclic (ArrayEdge h)) (root : Val) :
    ArrayRank h root where
  rank := Relations.height (ArrayEdge h) (Finset.range h.size)
  bound := h.size
  le_bound a := (Relations.height_le _ _ a).trans_eq (Finset.card_range h.size)
  decreases {_ _ name elems elems'} _ found edge found' :=
    Relations.height_lt acyclic ⟨elems, elems', name, found, edge, found'⟩
      (Finset.mem_range.mpr (complete.child_bound edge))

theorem CopyRun.fresh {format : JsonFormat} {h₁ h' : Heap} {a b : Nat} {copies : Copies} {origin : Nat → Option Nat}
    {visited : List Nat} (run : CopyRun format h a h₁ copies origin visited h' b) {c : Nat}
    (reached : h'.Reaches (.ref b) (.ref c)) : h.size ≤ c ∧ c < h'.size :=
  run.linking.news c (run.visited_of_reaches reached c rfl)

/-- Encoding ends, leaves every cell as it is, and returns the root itself where an object below it has the key of
    the format, else a graph of new cells. -/
theorem encode_frame (text : JsonText) (format : JsonFormat) (complete : h.Complete)
    (acyclic : Relations.Acyclic (ArrayEdge h)) {a : Nat} (bound : a < h.size) {fuel : Nat}
    (enough : h.size * (h.size + 2) < fuel) :
    ∃ encoder h' v', encode text fuel format.name = .ok encoder ∧
      encoder h (.value (.ref a)) = pure (h', .value v') ∧ (∀ x < h.size, h'.cell? x = h.cell? x) ∧
      ((Typed format h (.ref a) ∧ v' = .ref a) ∨
        (¬ Typed format h (.ref a) ∧ ∃ b, v' = .ref b ∧
          ∀ c, h'.Reaches (.ref b) (.ref c) → h.size ≤ c ∧ c < h'.size)) := by
  have live : h.Live (.ref a) := complete.live bound
  have search : h.size < fuel := (Nat.le_mul_of_pos_right _ (Nat.succ_pos _)).trans_lt enough
  rcases findProperty_spec format.typeKey live search with ⟨found, searched, spec⟩
  rw [ownsKey_iff_typed] at spec
  cases found with
  | true =>
    have called : asJson format fuel h (.ref a) = some (h, .ref a) := by simp [asJson_eq, searched]
    exact ⟨_, h, .ref a, encode_name text fuel format, handleString_value text called, fun _ _ => rfl,
      .inl ⟨spec.mp rfl, rfl⟩⟩
  | false =>
    have untyped : ¬ Typed format h (.ref a) := fun typed => Bool.noConfusion (spec.mpr typed)
    rcases copy_spec format live (heightRank complete acyclic (.ref a)) enough with
      ⟨h₁, copies, origin, visited, h', b, returned, run⟩
    have called : asJson format fuel h (.ref a) = some (h', .ref b) := by simp [asJson_eq, searched, returned]
    exact ⟨_, h', .ref b, encode_name text fuel format, handleString_value text called, run.linking.old,
      .inr ⟨untyped, b, rfl, fun c reached => run.fresh reached⟩⟩

def nestedCycle : Heap where
  cells := [.object [("$type", .prim (.string "Node")), ("rows", .ref 1)], .array [.ref 2, .ref 0, .prim .null],
    .array [.prim (.number 1)]]

theorem encode_frame_nestedCycle : ∃ encoder h' v', encode plainText 16 FORMAT_JSON_V1 = .ok encoder ∧
    encoder nestedCycle (.value (.ref 1)) = pure (h', .value v') ∧ (∀ x < 3, h'.cell? x = nestedCycle.cell? x) ∧
    ((Typed .json nestedCycle (.ref 1) ∧ v' = .ref 1) ∨
      (¬ Typed .json nestedCycle (.ref 1) ∧ ∃ b, v' = .ref b ∧
        ∀ c, h'.Reaches (.ref b) (.ref c) → 3 ≤ c ∧ c < h'.size)) := by
  refine encode_frame plainText .json (by decide) ?_ (by decide) (by decide)
  refine Relations.acyclic_of_increasing id fun x y edge => ?_
  rcases edge with ⟨elems, elems', name, found, child, found'⟩
  have bound : x < 3 := Heap.cell_bound found
  rw [Heap.child_ref, found, Option.bind_some] at child
  have member := Cell.mem_references_of_child child
  have cases : x = 0 ∨ x = 1 ∨ x = 2 := by omega
  rcases cases with rfl | rfl | rfl
  · cases found
  · cases found
    have targets : y = 2 ∨ y = 0 := by simpa [Cell.references, Cell.values] using member
    rcases targets with rfl | rfl
    · decide
    · cases found'
  · cases found
    simp [Cell.references, Cell.values] at member

end ModelServer.TypeUtil
