import Mathlib.Data.Nat.Size
import Mathlib.Data.List.Perm.Basic
import Mathlib.Algebra.Order.Ring.Nat

namespace Bits

variable {w : Nat}

/-- The bitwise or of a list of words. -/
def orAll (words : List (BitVec w)) : BitVec w := words.foldr (· ||| ·) 0#w

@[simp] theorem orAll_nil : orAll ([] : List (BitVec w)) = 0#w := rfl

@[simp] theorem orAll_cons (x : BitVec w) (words : List (BitVec w)) : orAll (x :: words) = x ||| orAll words := rfl

theorem orAll_append (left right : List (BitVec w)) : orAll (left ++ right) = orAll left ||| orAll right := by
  induction left with
  | nil => simp
  | cons x left ih => rw [List.cons_append, orAll_cons, orAll_cons, ih, BitVec.or_assoc]

theorem orAll_flatten (blocks : List (List (BitVec w))) : orAll blocks.flatten = orAll (blocks.map orAll) := by
  induction blocks with
  | nil => rfl
  | cons block blocks ih => rw [List.flatten_cons, orAll_append, ih, List.map_cons, orAll_cons]

theorem orAll_perm {left right : List (BitVec w)} (same : left.Perm right) : orAll left = orAll right := by
  induction same with
  | nil => rfl
  | cons x _ ih => rw [orAll_cons, orAll_cons, ih]
  | swap x y rest =>
    simp only [orAll_cons, ← BitVec.or_assoc]
    rw [BitVec.or_comm y x]
  | trans _ _ first second => exact first.trans second

theorem or_lt_two_pow_iff (x y k : Nat) : x ||| y < 2 ^ k ↔ x < 2 ^ k ∧ y < 2 ^ k := by
  constructor
  · intro bound
    exact ⟨Nat.lt_of_le_of_lt Nat.left_le_or bound, Nat.lt_of_le_of_lt Nat.right_le_or bound⟩
  · intro bounds
    exact Nat.or_lt_two_pow bounds.1 bounds.2

theorem orAll_lt_iff (k : Nat) (words : List (BitVec w)) :
    (orAll words).toNat < 2 ^ k ↔ ∀ x ∈ words, x.toNat < 2 ^ k := by
  induction words with
  | nil => simp
  | cons x words ih => rw [orAll_cons, BitVec.toNat_or, or_lt_two_pow_iff, ih, List.forall_mem_cons]

theorem orAll_eq_zero_iff (words : List (BitVec w)) : orAll words = 0#w ↔ ∀ x ∈ words, x = 0#w := by
  induction words with
  | nil => simp
  | cons x words ih => rw [orAll_cons, BitVec.or_eq_zero_iff, ih, List.forall_mem_cons]

/-- The highest of the `n` lowest bits that is set, counted from one; zero where none of them is. -/
def level (n : Nat) (x : BitVec w) : Nat := (x.toNat % 2 ^ n).size

theorem level_le_iff (n k : Nat) (x : BitVec w) : level n x ≤ k ↔ x.toNat % 2 ^ n < 2 ^ k := Nat.size_le

theorem level_le (n : Nat) (x : BitVec w) : level n x ≤ n :=
  (level_le_iff n n x).mpr (Nat.mod_lt _ (Nat.two_pow_pos n))

@[simp] theorem level_zero (n : Nat) : level n (0#w) = 0 := by simp [level]

theorem level_or (n : Nat) (x y : BitVec w) : level n (x ||| y) = max (level n x) (level n y) := by
  apply eq_of_forall_ge_iff
  intro k
  rw [max_le_iff, level_le_iff, level_le_iff, level_le_iff, BitVec.toNat_or, Nat.or_mod_two_pow, or_lt_two_pow_iff]

theorem level_mono (n : Nat) {x y : BitVec w} (le : x.toNat ≤ y.toNat) (bound : y.toNat < 2 ^ n) :
    level n x ≤ level n y := by
  rw [level, level, Nat.mod_eq_of_lt bound, Nat.mod_eq_of_lt (Nat.lt_of_le_of_lt le bound)]
  exact Nat.size_le_size le

theorem level_orAll_le_iff (n k : Nat) (words : List (BitVec w)) :
    level n (orAll words) ≤ k ↔ ∀ x ∈ words, level n x ≤ k := by
  induction words with
  | nil => simp
  | cons x words ih => rw [orAll_cons, level_or, max_le_iff, ih, List.forall_mem_cons]

theorem le_level_orAll (n : Nat) {words : List (BitVec w)} {x : BitVec w} (member : x ∈ words) :
    level n x ≤ level n (orAll words) :=
  (level_orAll_le_iff n _ words).mp (Nat.le_refl _) x member

theorem level_orAll_mem (n : Nat) {words : List (BitVec w)} (some : words ≠ []) :
    ∃ x ∈ words, level n (orAll words) = level n x := by
  induction words with
  | nil => exact absurd rfl some
  | cons x words ih =>
    rw [orAll_cons, level_or]
    rcases Nat.le_total (level n (orAll words)) (level n x) with here | below
    · exact ⟨x, List.mem_cons_self, max_eq_left here⟩
    · rw [max_eq_right below]
      cases words with
      | nil =>
        rw [orAll_nil, level_zero] at below
        exact ⟨x, List.mem_cons_self, by rw [orAll_nil, level_zero, Nat.le_zero.mp below]⟩
      | cons y words =>
        rcases ih (by simp) with ⟨z, member, same⟩
        exact ⟨z, List.mem_cons_of_mem _ member, same⟩

end Bits
