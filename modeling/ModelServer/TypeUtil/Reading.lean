import ModelServer.TypeUtil.Encode
import Mathlib.Data.Finset.Card

namespace ModelServer.TypeUtil

open Js

variable {σ : Type}

/-- A traversal whose callback only allocates: it sees the graph below the root as it was before. -/
structure Reader (fn : Callback σ) (h₀ : Heap) (root : Val) where
  live : ∀ a, h₀.Reaches root (.ref a) → a < h₀.size
  Inv : Walk σ → Prop
  goal : Prop
  visit : ∀ {w a c stop heap state}, Inv w → h₀.size ≤ w.heap.size → (∀ b < h₀.size, w.heap.cell? b = h₀.cell? b) →
    h₀.Reaches root (.ref a) → a ∉ w.visited → h₀.cell? a = some c →
    fn a c.ownNames w.heap w.state = (stop, heap, state) →
    if stop then goal else
      Inv ⟨heap, a :: w.visited, state⟩ ∧ w.heap.size ≤ heap.size ∧
      ∀ b, b < w.heap.size → heap.cell? b = w.heap.cell? b

namespace Reader

variable {fn : Callback σ} {h₀ : Heap} {root : Val} (r : Reader fn h₀ root)

structure Reading (w : Walk σ) : Prop where
  inv : r.Inv w
  size : h₀.size ≤ w.heap.size
  old : ∀ b < h₀.size, w.heap.cell? b = h₀.cell? b
  reached : ∀ a ∈ w.visited, h₀.Reaches root (.ref a)

def Legit (h₀ : Heap) (root : Val) (h : Heap) (v : Val) : Prop :=
  h₀.size ≤ h.size ∧ ∀ a, v = .ref a → h₀.Reaches root (.ref a)

def unvisited (h₀ : Heap) (w : Walk σ) : Finset Nat := (Finset.range h₀.size).filter (· ∉ w.visited)

theorem unvisited_lt {w w' : Walk σ} {a : Nat} (bound : a < h₀.size) (fresh : a ∉ w.visited)
    (seen : ∀ b ∈ a :: w.visited, b ∈ w'.visited) : (unvisited h₀ w').card < (unvisited h₀ w).card := by
  apply Finset.card_lt_card
  refine ⟨fun b member => ?_, fun reverse => ?_⟩
  · simp only [unvisited, Finset.mem_filter] at member ⊢
    exact ⟨member.1, fun visited => member.2 (seen b (List.mem_cons_of_mem a visited))⟩
  · have there := reverse (show a ∈ unvisited h₀ w by simp [unvisited, bound, fresh])
    simp only [unvisited, Finset.mem_filter] at there
    exact there.2 (seen a (List.mem_cons_self ..))

variable {r}

theorem Reading.child {w : Walk σ} (s : r.Reading w) {a : Nat} (reached : h₀.Reaches root (.ref a)) (name : String) :
    w.heap.child (.ref a) name = h₀.child (.ref a) name := by
  simp [Heap.child, s.old a (r.live a reached)]

theorem Reading.objectArray {w : Walk σ} (s : r.Reading w) {v : Val}
    (reached : ∀ a, v = .ref a → h₀.Reaches root (.ref a)) :
    isNonEmptyObjectArray w.heap v = isNonEmptyObjectArray h₀ v := by
  apply isNonEmptyObjectArray_congr
  · intro a same
    subst same
    exact s.old a (r.live a (reached a rfl))
  · intro name b edge
    cases v with
    | ref a => exact s.old b (r.live b (.child (reached a rfl) edge))
    | undefined => cases edge
    | prim p => cases edge

variable (r)

def discipline : Discipline Unit fn where
  le _ _ := True
  le_refl _ := trivial
  le_trans _ _ := trivial
  Inv _ := r.Reading
  Legit := Legit h₀ root
  goal := r.goal
  need _ w _ := (unvisited h₀ w).card
  legit_mono size legit := ⟨legit.1.trans size, legit.2⟩
  legit_child {_ w a name v} s visited edge := by
    refine ⟨s.size, ?_⟩
    intro b same
    subst same
    rw [s.child (s.reached a visited)] at edge
    exact .child (s.reached a visited) edge
  legit_element {_ w v i} s legit array := by
    refine ⟨s.size, fun b element => ?_⟩
    have edge := child_of_elementAt element
    cases v with
    | ref a =>
      rw [s.child (legit.2 a rfl)] at edge
      exact .child (legit.2 a rfl) edge
    | undefined => cases edge
    | prim p => cases edge
  array_lasting s _ s' legit array := by
    rw [s'.objectArray legit.2, ← s.objectArray legit.2]
    exact array
  visited_live s visited := (r.live _ (s.reached _ visited)).trans_le s.size
  visit {_ w a stop heap state} s legit fresh called := by
    have reached := legit.2 a rfl
    obtain ⟨c, found⟩ := Heap.cell_exists (r.live a reached)
    have cell : w.heap.cell? a = some c := by rw [s.old a (r.live a reached), found]
    have props : ownPropsOf w.heap a = c.ownNames := by simp [ownPropsOf, cell]
    rw [props] at called ⊢
    have visited := r.visit s.inv s.size s.old reached fresh found called
    cases stop with
    | true => simpa using visited
    | false =>
      simp only [Bool.false_eq_true, if_false] at visited ⊢
      obtain ⟨inv, size, kept⟩ := visited
      have old : ∀ b < h₀.size, heap.cell? b = h₀.cell? b :=
        fun b bound => (kept b (bound.trans_le s.size)).trans (s.old b bound)
      refine ⟨⟨(), trivial, inv, s.size.trans size, old, ?_⟩, size, fun b bound _ => kept b bound, ?_⟩
      · intro b member
        rcases List.mem_cons.mp member with rfl | member
        · exact reached
        · exact s.reached b member
      · intro name v child
        simp only [Heap.child_ref, old a (r.live a reached), found, Option.bind_some] at child
        exact Cell.mem_ownNames_of_child child
  need_child {_ _ w w' a _ _} _ legit fresh _ _ seen _ := unvisited_lt (r.live a (legit.2 a rfl)) fresh seen
  need_element {_ _ w w' a _ _ _} _ legit fresh _ _ seen _ _ := unvisited_lt (r.live a (legit.2 a rfl)) fresh seen

/-- With one unit of fuel more than there are cells the traversal returns, having visited all that the root reaches. -/
theorem returns {fuel : Nat} (enough : h₀.size < fuel) {state : σ} (start : r.Inv ⟨h₀, [], state⟩) :
    Returns (traverse fn fuel root ⟨h₀, [], state⟩) r.goal fun w =>
      r.Reading w ∧ ∀ a, a ∈ w.visited ↔ h₀.Reaches root (.ref a) := by
  have need : (unvisited h₀ (⟨h₀, [], state⟩ : Walk σ)).card < fuel := by
    simpa [unvisited] using enough
  have run := r.discipline.traverse_returns fuel () ⟨h₀, [], state⟩ root
    ⟨start, Nat.le_refl _, fun _ _ => rfl, by simp⟩ ⟨Nat.le_refl _, fun a same => same ▸ .root⟩ need
  apply run.mono
  intro w given
  rcases given with ⟨⟨⟨_, -, reading⟩, progress⟩, arrived⟩
  refine ⟨reading, fun a => ⟨reading.reached a, fun reached => ?_⟩⟩
  -- every value on the way is visited, by the closure of the visited set
  suffices all : ∀ v, h₀.Reaches root v → ∀ b, v = .ref b → b ∈ w.visited from all _ reached a rfl
  intro v reaches
  induction reaches with
  | root => exact arrived
  | @child v x name previous edge ih =>
    intro b same
    subst same
    cases v with
    | ref c =>
      apply progress.closed c (ih c rfl) (by simp) name b
      rw [reading.child previous]
      exact edge
    | undefined => cases edge
    | prim p => cases edge

end Reader

end ModelServer.TypeUtil
