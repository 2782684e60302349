import Mathlib.Data.List.Basic
import Mathlib.Order.Lattice

namespace Lists

section Greatest

variable {α β : Type} [LinearOrder β] (f : α → β)

/-- The first element of the greatest value: nothing before it reaches its value, nothing after it exceeds it. -/
def FirstGreatest (xs : List α) (x : α) : Prop :=
  ∃ before after, xs = before ++ x :: after ∧ (∀ b ∈ before, f b < f x) ∧ ∀ a ∈ after, f a ≤ f x

variable {f} {xs : List α} {x y : α}

theorem FirstGreatest.mem (first : FirstGreatest f xs x) : x ∈ xs := by
  rcases first with ⟨before, after, rfl, -, -⟩
  simp

theorem FirstGreatest.le (first : FirstGreatest f xs x) (member : y ∈ xs) : f y ≤ f x := by
  rcases first with ⟨before, after, rfl, less, le⟩
  rcases List.mem_append.mp member with earlier | later
  · exact (less y earlier).le
  · rcases List.mem_cons.mp later with rfl | later
    · exact le_rfl
    · exact le y later

theorem FirstGreatest.single : FirstGreatest f [x] x := ⟨[], [], rfl, by simp, by simp⟩

theorem FirstGreatest.append (first : FirstGreatest f xs x) {ys : List α} (le : ∀ y ∈ ys, f y ≤ f x) :
    FirstGreatest f (xs ++ ys) x := by
  rcases first with ⟨before, after, rfl, less, le'⟩
  refine ⟨before, after ++ ys, by simp, less, ?_⟩
  intro a member
  rcases List.mem_append.mp member with earlier | later
  · exact le' a earlier
  · exact le a later

theorem FirstGreatest.step (first : FirstGreatest f xs x) (y : α) :
    FirstGreatest f (xs ++ [y]) (if f x < f y then y else x) := by
  split
  · rename_i greater
    exact ⟨xs, [], rfl, fun b member => (first.le member).trans_lt greater, by simp⟩
  · rename_i notGreater
    apply first.append
    intro z member
    rw [List.mem_singleton.mp member]
    exact not_lt.mp notGreater

theorem FirstGreatest.scan (first : FirstGreatest f xs x) (ys : List α) :
    FirstGreatest f (xs ++ ys) (ys.foldl (fun greatest y => if f greatest < f y then y else greatest) x) := by
  induction ys generalizing xs x with
  | nil => simpa using first
  | cons y ys ih =>
    rw [List.append_cons, List.foldl_cons]
    exact ih (first.step y)

theorem firstGreatest_foldl (f : α → β) (x : α) (xs : List α) :
    FirstGreatest f (x :: xs) ((x :: xs).foldl (fun greatest y => if f greatest < f y then y else greatest) x) := by
  rw [List.foldl_cons, if_neg (lt_irrefl _)]
  exact FirstGreatest.single.scan xs

end Greatest

section ReadBack

variable {α β : Type} {xs ys xs' ys' : List α} {c : α}

/-- What stands before the first separator and after it can be read back. -/
theorem append_first_separator (same : xs ++ c :: ys = xs' ++ c :: ys') (free : c ∉ xs) (free' : c ∉ xs') :
    xs = xs' ∧ ys = ys' := by
  induction xs generalizing xs' with
  | nil =>
    cases xs' with
    | nil => exact ⟨rfl, (List.cons.inj same).2⟩
    | cons x' xs' =>
      have head : c = x' := (List.cons.inj same).1
      exact absurd (head ▸ List.mem_cons_self) free'
  | cons x xs ih =>
    cases xs' with
    | nil =>
      have head : x = c := (List.cons.inj same).1
      exact absurd (head ▸ List.mem_cons_self) free
    | cons x' xs' =>
      rcases List.cons.inj same with ⟨rfl, rest⟩
      rcases ih rest (fun member => free (.tail _ member)) (fun member => free' (.tail _ member)) with ⟨rfl, rfl⟩
      exact ⟨rfl, rfl⟩

/-- So can what stands before the last separator and after it. -/
theorem append_last_separator (same : xs ++ c :: ys = xs' ++ c :: ys') (free : c ∉ ys) (free' : c ∉ ys') :
    xs = xs' ∧ ys = ys' := by
  have reversed : ys.reverse ++ c :: xs.reverse = ys'.reverse ++ c :: xs'.reverse := by
    simpa using congrArg List.reverse same
  rcases append_first_separator reversed (by simpa using free) (by simpa using free') with ⟨after, before⟩
  exact ⟨List.reverse_injective before, List.reverse_injective after⟩

theorem map_injective_on {P : α → Prop} {f : α → β} (injective : ∀ x x', P x → P x' → f x = f x' → x = x')
    (all : ∀ x ∈ xs, P x) (all' : ∀ x ∈ xs', P x) (same : xs.map f = xs'.map f) : xs = xs' := by
  induction xs generalizing xs' with
  | nil => exact (List.map_eq_nil_iff.mp same.symm).symm
  | cons x xs ih =>
    cases xs' with
    | nil => cases same
    | cons x' xs' =>
      rcases List.cons.inj same with ⟨first, rest⟩
      have head := injective x x' (all x List.mem_cons_self) (all' x' List.mem_cons_self) first
      have tail := ih (fun y member => all y (.tail _ member)) (fun y member => all' y (.tail _ member)) rest
      rw [head, tail]

end ReadBack

end Lists
