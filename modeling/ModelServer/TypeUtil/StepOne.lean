import ModelServer.TypeUtil.CopyJson
import ModelServer.TypeUtil.Reading

namespace ModelServer.TypeUtil

open Js

/-- Each seen cell has one copy, a new object with its renamed properties, and there are no other new cells. -/
structure Copying (format : JsonFormat) (h₀ : Heap) (seen : Nat → Prop) (h : Heap) (copies : Copies) : Prop where
  size : h₀.size ≤ h.size
  domain : ∀ a, seen a ↔ ∃ b, copies.lookup a = some b
  copied : ∀ a b, copies.lookup a = some b → h₀.size ≤ b ∧ b < h.size ∧
    ∃ c, h₀.cell? a = some c ∧ h.cell? b = some (copyCell format h₀ c)
  injective : ∀ a a' b, copies.lookup a = some b → copies.lookup a' = some b → a = a'
  covered : ∀ b, h₀.size ≤ b → b < h.size → ∃ a, copies.lookup a = some b

theorem Copying.start (format : JsonFormat) (h₀ : Heap) : Copying format h₀ (· ∈ []) h₀ ∅ where
  size := Nat.le_refl _
  domain := by simp
  copied := by simp
  injective := by simp
  covered b low high := absurd high (Nat.not_lt_of_le low)

theorem lookup_insert_iff (copies : Copies) (a b a' b' : Nat) :
    (copies.insert a b).lookup a' = some b' ↔ (a' = a ∧ b' = b) ∨ (a' ≠ a ∧ copies.lookup a' = some b') := by
  by_cases same : a' = a
  · subst same
    simp [AList.lookup_insert, eq_comm]
  · simp [AList.lookup_insert_ne same, same]

theorem Copying.step {format : JsonFormat} {h₀ h : Heap} {visited : List Nat} {copies : Copies} {a : Nat} {c : Cell}
    (s : Copying format h₀ (· ∈ visited) h copies) (fresh : a ∉ visited) (found : h₀.cell? a = some c) :
    Copying format h₀ (· ∈ a :: visited) (h.alloc (copyCell format h₀ c)).1 (copies.insert a h.size) := by
  have lookup := lookup_insert_iff copies a h.size
  refine ⟨?_, ?_, ?_, ?_, ?_⟩
  · simp only [Heap.size_alloc]
    exact s.size.trans (Nat.le_succ _)
  · intro a'
    simp only [List.mem_cons, lookup]
    constructor
    · intro given
      rcases given with rfl | member
      · exact ⟨h.size, .inl ⟨rfl, rfl⟩⟩
      · obtain ⟨b, at_a'⟩ := (s.domain a').mp member
        exact ⟨b, .inr ⟨fun same => fresh (same ▸ member), at_a'⟩⟩
    · intro given
      rcases given with ⟨b, ⟨rfl, -⟩ | ⟨-, at_a'⟩⟩
      · exact .inl rfl
      · exact .inr ((s.domain a').mpr ⟨b, at_a'⟩)
  · intro a' b at_a'
    rcases (lookup a' b).mp at_a' with ⟨rfl, rfl⟩ | ⟨-, before⟩
    · exact ⟨s.size, by simp, c, found, by simp [Heap.cell_alloc]⟩
    · obtain ⟨low, high, d, at_d, copied⟩ := s.copied a' b before
      exact ⟨low, by simpa using Nat.lt_succ_of_lt high, d, at_d, by rw [Heap.cell_alloc_old _ _ high, copied]⟩
  · intro a₁ a₂ b first second
    rcases (lookup a₁ b).mp first with ⟨rfl, rfl⟩ | ⟨-, before₁⟩
    · rcases (lookup a₂ _).mp second with ⟨rfl, -⟩ | ⟨-, before₂⟩
      · rfl
      · exact absurd (s.copied _ _ before₂).2.1 (Nat.lt_irrefl _)
    · rcases (lookup a₂ b).mp second with ⟨rfl, rfl⟩ | ⟨-, before₂⟩
      · exact absurd (s.copied _ _ before₁).2.1 (Nat.lt_irrefl _)
      · exact s.injective _ _ _ before₁ before₂
  · intro b low high
    simp only [Heap.size_alloc] at high
    rcases Nat.lt_succ_iff_lt_or_eq.mp high with below | rfl
    · obtain ⟨a', before⟩ := s.covered b low below
      refine ⟨a', (lookup a' b).mpr (.inr ⟨?_, before⟩)⟩
      intro same
      subst same
      exact fresh ((s.domain _).mpr ⟨b, before⟩)
    · exact ⟨a, (lookup a _).mpr (.inl ⟨rfl, rfl⟩)⟩

theorem copyCell_congr {format : JsonFormat} {h₀ h : Heap} {c : Cell}
    (old : ∀ a, c.child "__proto__" = some (.ref a) → h.cell? a = h₀.cell? a) :
    copyCell format h c = copyCell format h₀ c := by
  have same : ∀ name, inherited h c name = inherited h₀ c name := by
    intro name
    cases found : c.child "__proto__" with
    | none => simp [inherited, found]
    | some v =>
      cases v with
      | undefined => simp [inherited, found, Heap.child]
      | prim p => simp [inherited, found, Heap.child]
      | ref a => simp [inherited, found, old a found]
  rw [copyCell_eq, copyCell_eq, same]

def copierReader (format : JsonFormat) (h₀ : Heap) (root : Val) (live : ∀ a, h₀.Reaches root (.ref a) → a < h₀.size) :
    Reader (copier format) h₀ root where
  live := live
  Inv w := Copying format h₀ (· ∈ w.visited) w.heap w.state
  goal := False
  visit {w a c stop heap state} inv _ old reached fresh found called := by
    have cell : w.heap.cell? a = some c := by rw [old a (live a reached), found]
    have copied : copyCell format w.heap c = copyCell format h₀ c := by
      refine copyCell_congr fun x proto => old x (live x ?_)
      have edge : h₀.child (.ref a) "__proto__" = some (.ref x) := by rw [Heap.child_ref, found, Option.bind_some, proto]
      exact .child reached edge
    simp only [copier, cell, Option.getD_some, copied] at called
    cases called
    simp only [Bool.false_eq_true, if_false]
    exact ⟨inv.step fresh found, by simp, fun b bound => Heap.cell_alloc_old _ _ bound⟩

/-- The state between the two steps of `copy`. -/
structure Copied (format : JsonFormat) (h₀ : Heap) (root : Val) (h₁ : Heap) (copies : Copies) : Prop extends
    Copying format h₀ (fun a => h₀.Reaches root (.ref a)) h₁ copies where
  live : ∀ a, h₀.Reaches root (.ref a) → a < h₀.size
  old : ∀ b < h₀.size, h₁.cell? b = h₀.cell? b

theorem stepOne_spec (format : JsonFormat) {h₀ : Heap} {root : Val}
    (live : ∀ a, h₀.Reaches root (.ref a) → a < h₀.size) {fuel : Nat} (enough : h₀.size < fuel) :
    ∃ w, traverse (copier format) fuel root ⟨h₀, [], ∅⟩ = some (false, w) ∧
      Copied format h₀ root w.heap w.state := by
  obtain ⟨found, w, result, outcome⟩ :=
    (copierReader format h₀ root live).returns enough (Copying.start format h₀)
  cases found with
  | true => exact False.elim outcome
  | false =>
    simp only [Bool.false_eq_true, if_false] at outcome
    obtain ⟨reading, reached⟩ := outcome
    have inv : Copying format h₀ (· ∈ w.visited) w.heap w.state := reading.inv
    refine ⟨w, result, ⟨inv.size, fun a => ?_, inv.copied, inv.injective, inv.covered⟩, live, reading.old⟩
    rw [← reached a, inv.domain a]

end ModelServer.TypeUtil
