import ModelServer.TypeUtil.StepOne
import ModelServer.TypeUtil.Relink
import Mathlib.Order.Interval.Finset.Nat

namespace ModelServer.TypeUtil

open Js Relations

/-- Arrays that are elements of arrays can be ranked: no cycle runs through arrays only. -/
structure ArrayRank (h₀ : Heap) (root : Val) where
  rank : Nat → Nat
  bound : Nat
  le_bound : ∀ a, rank a ≤ bound
  decreases : ∀ {a b name elems elems'}, h₀.Reaches root (.ref a) → h₀.cell? a = some (.array elems) →
    h₀.child (.ref a) name = some (.ref b) → h₀.cell? b = some (.array elems') → rank b < rank a

def Linked (copies : Copies) (h₀ : Heap) (origin : Nat → Option Nat) (c c' : Cell) : Prop :=
  c'.shape = c.shape ∧ ∀ name, Option.Rel (Relinked copies h₀ origin) (c.child name) (c'.child name)

theorem Linked.mono {copies : Copies} {h₀ : Heap} {origin origin' : Nat → Option Nat} {c c' : Cell}
    (le : ∀ b a, origin b = some a → origin' b = some a) (l : Linked copies h₀ origin c c') :
    Linked copies h₀ origin' c c' :=
  ⟨l.1, fun name => rel_mono (l.2 name) fun _ _ _ _ => Relinked.mono le⟩

theorem isNonEmptyObjectArray_iff {h : Heap} {v : Val} : isNonEmptyObjectArray h v = true ↔
    ∃ elems first, arrayElems? h v = some elems ∧ h.child v (indexName 0) = some first ∧
      isObject first = true ∧ arrayElems? h first = none := by
  simp only [isNonEmptyObjectArray]
  cases array : arrayElems? h v with
  | none => simp
  | some elems =>
    obtain ⟨a, rfl, found⟩ := arrayElems_eq array
    cases elems with
    | nil => simp [found, Cell.child]
    | cons first rest => simp [found, Cell.child]

theorem array_ext {c c' : Cell} {elems : List Val} (array : c = .array elems) (shape : c'.shape = c.shape)
    (children : ∀ name, c'.child name = c.child name) : c' = c := by
  subst array
  cases c' with
  | object props => simp [Cell.shape] at shape
  | array elems' =>
    congr 1
    apply List.ext_getElem?
    intro i
    simpa [Cell.child] using children (indexName i)

theorem shape_copyCell (format : JsonFormat) (h : Heap) (c : Cell) : (copyCell format h c).shape = .obj := by
  cases format <;> rfl

/-- The second step of `copy`: `origin` gives the original of every new array. -/
structure Linking (format : JsonFormat) (h₀ : Heap) (root : Val) (h₁ : Heap) (copies : Copies)
    (origin : Nat → Option Nat) (visited : List Nat) (h : Heap) : Prop where
  size : h₁.size ≤ h.size
  old : ∀ b < h₀.size, h.cell? b = h₀.cell? b
  news : ∀ b ∈ visited, h₀.size ≤ b ∧ b < h.size
  copyCells : ∀ a b, copies.lookup a = some b → ∃ c c', h₀.cell? a = some c ∧ h.cell? b = some c' ∧
    if b ∈ visited then Linked copies h₀ origin (copyCell format h₀ c) c' else c' = copyCell format h₀ c
  fresh : ∀ b, h₁.size ≤ b → b < h.size → ∃ a, origin b = some a
  origins : ∀ b a, origin b = some a → h₁.size ≤ b ∧ b < h.size ∧ h₀.Reaches root (.ref a) ∧
    ∃ elems c', h₀.cell? a = some (.array elems) ∧ h.cell? b = some c' ∧
      if isNonEmptyObjectArray h₀ (.ref a) then c' = .array (elems.map (copyGetter copies))
      else if b ∈ visited then Linked copies h₀ origin (.array elems) c' else c' = .array elems

section

variable {format : JsonFormat} {h₀ h₁ h : Heap} {root : Val} {copies : Copies} {origin : Nat → Option Nat}
  {visited : List Nat}

theorem Linking.start (copied : Copied format h₀ root h₁ copies) :
    Linking format h₀ root h₁ copies (fun _ => none) [] h₁ where
  size := Nat.le_refl _
  old := copied.old
  news := by simp
  copyCells a b found := by
    obtain ⟨-, -, c, at_a, at_b⟩ := copied.copied a b found
    exact ⟨c, copyCell format h₀ c, at_a, at_b, by simp⟩
  fresh b low high := absurd high (Nat.not_lt_of_le low)
  origins := by simp

def Original (h₀ : Heap) (root : Val) (v : Val) : Prop := ∀ a, v = .ref a → h₀.Reaches root (.ref a)

theorem original_child {a : Nat} {name : String} {c : Cell} {v : Val} (reached : h₀.Reaches root (.ref a))
    (found : h₀.cell? a = some c) (child : c.child name = some v) : Original h₀ root v := by
  intro b same
  subst same
  exact .child reached (show h₀.child (.ref a) name = _ by simp [found, child])

theorem original_copyCell {a : Nat} {name : String} {c : Cell} {v : Val} (reached : h₀.Reaches root (.ref a))
    (found : h₀.cell? a = some c) (child : (copyCell format h₀ c).child name = some v) : Original h₀ root v := by
  rw [copyCell_eq] at child
  rcases child_of_copyEntries child with ⟨key, own⟩ | below
  · rw [Cell.lookup_entries] at own
    exact original_child reached found own
  · rcases Option.bind_eq_some_iff.mp below with ⟨prototype, proto, typed⟩
    intro b same
    subst same
    cases prototype with
    | undefined => cases typed
    | prim p => cases typed
    | ref x => exact .child (original_child reached found proto x rfl) typed

theorem isObject_copyGetter (v : Val) : isObject (copyGetter copies v) = isObject v := by
  cases v with
  | ref a =>
    simp only [copyGetter]
    split <;> rfl
  | undefined => rfl
  | prim p => rfl

theorem Copied.lookup_of_copyGetter (copied : Copied format h₀ root h₁ copies) {v : Val} {b : Nat}
    (original : Original h₀ root v) (copy : copyGetter copies v = .ref b) : ∃ a, v = .ref a ∧ copies.lookup a = some b := by
  cases v with
  | ref a =>
    obtain ⟨b', found⟩ := (copied.domain a).mp (original a rfl)
    simp only [copyGetter, found, Val.ref.injEq] at copy
    exact ⟨a, rfl, by rw [found, copy]⟩
  | undefined => cases copy
  | prim p => cases copy

theorem Copied.copyGetter_new (copied : Copied format h₀ root h₁ copies) {b : Nat} (new : h₀.size ≤ b) :
    copyGetter copies (.ref b) = .ref b := by
  have absent : copies.lookup b = none := by
    by_contra present
    obtain ⟨b', found⟩ := Option.ne_none_iff_exists'.mp present
    exact absurd (copied.live b ((copied.domain b).mpr ⟨b', found⟩)) (Nat.not_lt_of_le new)
  simp [copyGetter, absent]

namespace Linking

variable (s : Linking format h₀ root h₁ copies origin visited h)

include s

theorem copy_shape {a b : Nat} (found : copies.lookup a = some b) : ∃ c, h.cell? b = some c ∧ c.shape = .obj := by
  obtain ⟨c, c', -, at_b, content⟩ := s.copyCells a b found
  refine ⟨c', at_b, ?_⟩
  split at content
  · rw [content.1, shape_copyCell]
  · rw [content, shape_copyCell]

theorem copy_not_array {a b : Nat} (found : copies.lookup a = some b) : arrayElems? h (.ref b) = none := by
  obtain ⟨c, at_b, shape⟩ := s.copy_shape found
  cases c with
  | object props => simp [arrayElems?, at_b]
  | array elems => simp [Cell.shape] at shape

theorem origin_array {a b : Nat} (known : origin b = some a) : ∃ elems, h.cell? b = some (.array elems) := by
  obtain ⟨-, -, -, elems, c', -, at_b, content⟩ := s.origins b a known
  have array : ∃ elems', c' = .array elems' := by
    split at content
    · exact ⟨_, content⟩
    · split at content
      · cases c' with
        | object props => simp [Linked, Cell.shape] at content
        | array elems' => exact ⟨elems', rfl⟩
      · exact ⟨_, content⟩
  obtain ⟨elems', rfl⟩ := array
  exact ⟨elems', at_b⟩

theorem arrayElems_original (copied : Copied format h₀ root h₁ copies) {v : Val} (original : Original h₀ root v) :
    arrayElems? h v = arrayElems? h₀ v :=
  arrayElems_congr fun a same => s.old a (copied.live a (original a same))

theorem objectArray_original (copied : Copied format h₀ root h₁ copies) {v : Val} (original : Original h₀ root v) :
    isNonEmptyObjectArray h v = isNonEmptyObjectArray h₀ v := by
  apply isNonEmptyObjectArray_congr
  · exact fun a same => s.old a (copied.live a (original a same))
  · intro name b edge
    cases v with
    | ref a => exact s.old b (copied.live b (.child (original a rfl) edge))
    | undefined => cases edge
    | prim p => cases edge

theorem objectArray_mapped (copied : Copied format h₀ root h₁ copies) {a b : Nat} {elems : List Val}
    (reached : h₀.Reaches root (.ref a)) (at_a : h₀.cell? a = some (.array elems))
    (at_b : h.cell? b = some (.array (elems.map (copyGetter copies)))) (first : isNonEmptyObjectArray h₀ (.ref a) = true) :
    isNonEmptyObjectArray h (.ref b) = true := by
  rcases isNonEmptyObjectArray_iff.mp first with ⟨elems', e, array, child, object, plain⟩
  have original := original_child reached at_a (show (Cell.array elems).child (indexName 0) = some e by
    simpa [at_a] using child)
  apply isNonEmptyObjectArray_iff.mpr
  refine ⟨elems.map (copyGetter copies), copyGetter copies e, by simp [arrayElems?, at_b], ?_, ?_, ?_⟩
  · simp only [Heap.child_ref, at_a, at_b, Option.bind_some, Cell.child, indexOf_indexName] at child ⊢
    simp [child]
  · rw [isObject_copyGetter, object]
  · cases copy : copyGetter copies e with
    | ref y =>
      rcases copied.lookup_of_copyGetter original copy with ⟨x, -, found⟩
      exact s.copy_not_array found
    | undefined => rfl
    | prim p => rfl

theorem object_of_linked {elems : List Val} {c' : Cell} {e' : Val}
    (linked : Linked copies h₀ origin (.array elems) c') (child : c'.child (indexName 0) = some e')
    (object : isObject e' = true) (plain : arrayElems? h e' = none) :
    ∃ e, (Cell.array elems).child (indexName 0) = some e ∧ isObject e = true ∧ arrayElems? h₀ e = none := by
  have related := linked.2 (indexName 0)
  rw [child] at related
  cases source : (Cell.array elems).child (indexName 0) with
  | none =>
    rw [source] at related
    cases related
  | some e =>
    rw [source] at related
    cases related with
    | some relinked =>
      unfold Relinked at relinked
      split at relinked
      · rcases relinked with ⟨x, y, rfl, rfl, known'⟩
        rcases s.origin_array known' with ⟨ys, at_y⟩
        simp [arrayElems_of_cell at_y] at plain
      · rename_i notArray
        rw [relinked, isObject_copyGetter] at object
        exact ⟨e, rfl, object, notArray⟩

theorem objectArray_origin (copied : Copied format h₀ root h₁ copies) {a b : Nat} (known : origin b = some a) :
    isNonEmptyObjectArray h (.ref b) = isNonEmptyObjectArray h₀ (.ref a) := by
  rcases s.origins b a known with ⟨-, -, reached, elems, c', at_a, at_b, content⟩
  cases first : isNonEmptyObjectArray h₀ (.ref a) with
  | true =>
    simp only [first, if_true] at content
    subst content
    exact s.objectArray_mapped copied reached at_a at_b first
  | false =>
    simp only [first, Bool.false_eq_true, if_false] at content
    by_contra nonEmpty
    rcases isNonEmptyObjectArray_iff.mp (by simpa using nonEmpty) with ⟨elems', e', array, child, object, plain⟩
    simp only [Heap.child_ref, at_b, Option.bind_some] at child
    have source : ∃ e, (Cell.array elems).child (indexName 0) = some e ∧ isObject e = true ∧ arrayElems? h₀ e = none := by
      split at content
      · exact s.object_of_linked content child object plain
      · rw [content] at child
        refine ⟨e', child, object, ?_⟩
        rw [← s.arrayElems_original copied (original_child reached at_a child), plain]
    rcases source with ⟨e, child, object, plain⟩
    have objects := isNonEmptyObjectArray_iff.mpr ⟨elems, e, arrayElems_of_cell at_a, by simp [at_a, child], object, plain⟩
    rw [first] at objects
    cases objects

end Linking

end

end ModelServer.TypeUtil
