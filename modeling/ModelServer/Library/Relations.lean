import Mathlib.Data.Finset.Card
import Mathlib.Data.Option.Basic
import Mathlib.Logic.Relation

namespace Relations

section Heights

variable {α : Type} {r : α → α → Prop} {a b : α}

def Acyclic (r : α → α → Prop) : Prop := ∀ a, ¬ Relation.TransGen r a a

theorem acyclic_of_increasing (f : α → Nat) (increasing : ∀ a b, r a b → f a < f b) : Acyclic r := by
  have path : ∀ {a b}, Relation.TransGen r a b → f a < f b := by
    intro a b path
    induction path with
    | single edge => exact increasing _ _ edge
    | tail _ edge before => exact before.trans (increasing _ _ edge)
  exact fun a cycle => Nat.lt_irrefl _ (path cycle)

open Classical in
/-- How many of the nodes are below a node. -/
noncomputable def height (r : α → α → Prop) (nodes : Finset α) (a : α) : Nat :=
  (nodes.filter fun b => Relation.TransGen r a b).card

theorem height_le (r : α → α → Prop) (nodes : Finset α) (a : α) : height r nodes a ≤ nodes.card := by
  classical
  exact Finset.card_filter_le nodes _

/-- Along an edge the height decreases, because the lower node is not below itself. -/
theorem height_lt (acyclic : Acyclic r) {nodes : Finset α} (edge : r a b) (member : b ∈ nodes) :
    height r nodes b < height r nodes a := by
  classical
  apply Finset.card_lt_card
  refine ⟨fun c below => ?_, fun reverse => ?_⟩
  · simp only [Finset.mem_filter] at below ⊢
    exact ⟨below.1, .head edge below.2⟩
  · have cycle := reverse (show b ∈ nodes.filter fun c => Relation.TransGen r a c by simp [member, Relation.TransGen.single edge])
    simp only [Finset.mem_filter] at cycle
    exact acyclic b cycle.2

end Heights

section Options

variable {α β γ δ : Type} {R : α → β → Prop} {S : γ → δ → Prop}

theorem rel_bind {x : Option α} {y : Option β} {f : α → Option γ} {g : β → Option δ} (related : Option.Rel R x y)
    (each : ∀ a b, x = some a → y = some b → R a b → Option.Rel S (f a) (g b)) : Option.Rel S (x.bind f) (y.bind g) := by
  cases related with
  | some related => exact each _ _ rfl rfl related
  | none => exact .none

theorem rel_mono {R' : α → β → Prop} {x : Option α} {y : Option β} (related : Option.Rel R x y)
    (weaker : ∀ a b, x = some a → y = some b → R a b → R' a b) : Option.Rel R' x y := by
  cases related with
  | some related => exact .some (weaker _ _ rfl rfl related)
  | none => exact .none

theorem rel_map_left {T : γ → β → Prop} {x : Option α} {y : Option β} {f : α → γ} (related : Option.Rel R x y)
    (each : ∀ a b, R a b → T (f a) b) : Option.Rel T (x.map f) y := by
  cases related with
  | some related => exact .some (each _ _ related)
  | none => exact .none

theorem isSome_of_rel {x : Option α} {y : Option β} (related : Option.Rel R x y) : x.isSome = y.isSome := by
  cases related <;> rfl

theorem rel_or {R : α → β → Prop} {x x' : Option α} {y y' : Option β} (first : Option.Rel R x y)
    (second : Option.Rel R x' y') : Option.Rel R (x.or x') (y.or y') := by
  cases first with
  | none => exact second
  | some related => exact .some related

theorem rel_through {D : α → γ → Prop} {E : β → δ → Prop} {f : γ → δ} {x : Option α} {y : Option β} {z : Option γ}
    (replaced : Option.Rel R x y) (read : Option.Rel D x z)
    (each : ∀ a b c, x = some a → y = some b → z = some c → R a b → D a c → E b (f c)) :
    Option.Rel E y (z.map f) := by
  cases replaced with
  | none =>
    cases read
    exact .none
  | some r =>
    cases read with
    | some d => exact .some (each _ _ _ rfl rfl rfl r d)

theorem rel_map_iff {R : β → γ → Prop} {f : α → β} {g : α → γ} (x : Option α) :
    Option.Rel R (x.map f) (x.map g) ↔ ∀ a, x = some a → R (f a) (g a) := by
  cases x with
  | none => exact ⟨fun _ => nofun, fun _ => .none⟩
  | some a =>
    constructor
    · intro given b none
      rcases given with _ | _
      cases none
      assumption
    · exact fun all => .some (all a rfl)

theorem rel_map_self {R : α → α → Prop} {f : α → α} {x : Option α} (each : ∀ a, x = some a → R (f a) a) :
    Option.Rel R (x.map f) x := by
  cases x with
  | none => exact .none
  | some a => exact .some (each a rfl)

theorem exists_of_rel {x : Option α} {y : β} (related : Option.Rel R x (some y)) : ∃ x', x = some x' ∧ R x' y := by
  cases related with
  | some holds => exact ⟨_, rfl, holds⟩

end Options

end Relations
