import ModelServer.Js.EditInPlace
import Mathlib.Data.List.Induction
import Mathlib.Logic.Function.Basic

namespace Js

inductive Position (ι : Type)
  | root (i : ι)
  | edge (a : Nat) (name : String)
  deriving DecidableEq

namespace Heap

section Positions

variable {ι : Type} {h h' : Heap} {shared : Nat → Prop} {roots roots' : ι → Val}

/-- Every cell is read from one root along one path, apart from shared cells. -/
def Apart (h : Heap) (shared : Nat → Prop) (roots : ι → Val) : Prop :=
  ∀ b, ¬ shared b → ∀ i i' path path', h.walk (roots i) path = some (.ref b) →
    h.walk (roots i') path' = some (.ref b) → i = i' ∧ path = path'

def Closed (h : Heap) (shared : Nat → Prop) : Prop :=
  ∀ a name b, shared a → h.child (.ref a) name = some (.ref b) → shared b

def Leads (h : Heap) (roots : ι → Val) : Position ι → Nat → Prop
  | .root i, b => roots i = .ref b
  | .edge a name, b => (∃ i, h.Reaches (roots i) (.ref a)) ∧ h.child (.ref a) name = some (.ref b)

theorem walk_concat {v : Val} {path : List String} {name : String} {w : Val} (walked : h.walk v (path ++ [name]) = some w) :
    ∃ a, h.walk v path = some (.ref a) ∧ h.child (.ref a) name = some w := by
  rw [walk_append] at walked
  cases before : h.walk v path with
  | none => simp [before] at walked
  | some u =>
    have edge : h.child u name = some w := by
      simp only [before, Option.bind_some, walk] at walked
      cases found : h.child u name with
      | none => simp [found] at walked
      | some w' => simpa [found] using walked
    cases u with
    | undefined => cases edge
    | prim p => cases edge
    | ref a => exact ⟨a, rfl, edge⟩

theorem walk_snoc {v : Val} {path : List String} {name : String} {w : Val} {a : Nat}
    (walked : h.walk v path = some (.ref a)) (edge : h.child (.ref a) name = some w) :
    h.walk v (path ++ [name]) = some w := by
  rw [walk_append, walked]
  simp only [Option.bind_some, walk, edge]

theorem apart_of_positions (closed : h.Closed shared)
    (unique : ∀ b, ¬ shared b → ∀ p p', h.Leads roots p b → h.Leads roots p' b → p = p') : h.Apart shared roots := by
  intro b own i i' path
  induction path using List.reverseRecOn generalizing b with
  | nil =>
    intro path' walked walked'
    have first : h.Leads roots (.root i) b := Option.some.inj walked
    induction path' using List.reverseRecOn with
    | nil =>
      have second : h.Leads roots (.root i') b := Option.some.inj walked'
      cases unique b own _ _ first second
      exact ⟨rfl, rfl⟩
    | append_singleton rest name _ =>
      rcases walk_concat walked' with ⟨a, before, edge⟩
      have second : h.Leads roots (.edge a name) b := ⟨⟨i', (h.reaches_iff_walk _ _).mpr ⟨rest, before⟩⟩, edge⟩
      cases unique b own _ _ first second
  | append_singleton rest name ih =>
    intro path' walked walked'
    rcases walk_concat walked with ⟨a, before, edge⟩
    have first : h.Leads roots (.edge a name) b := ⟨⟨i, (h.reaches_iff_walk _ _).mpr ⟨rest, before⟩⟩, edge⟩
    induction path' using List.reverseRecOn with
    | nil =>
      have second : h.Leads roots (.root i') b := Option.some.inj walked'
      cases unique b own _ _ first second
    | append_singleton rest' name' _ =>
      rcases walk_concat walked' with ⟨a', before', edge'⟩
      have second : h.Leads roots (.edge a' name') b := ⟨⟨i', (h.reaches_iff_walk _ _).mpr ⟨rest', before'⟩⟩, edge'⟩
      cases unique b own _ _ first second
      have own' : ¬ shared a := fun held => own (closed a name b held edge)
      rcases ih a own' rest' before before' with ⟨rfl, rfl⟩
      exact ⟨rfl, rfl⟩

theorem Apart.position_unique (apart : h.Apart shared roots) {b : Nat} (own : ¬ shared b) {p p' : Position ι}
    (leads : h.Leads roots p b) (leads' : h.Leads roots p' b) : p = p' := by
  have path : ∀ {p : Position ι}, h.Leads roots p b → ∃ i path, h.walk (roots i) path = some (.ref b) ∧
      match p with
      | .root j => i = j ∧ path = []
      | .edge a name => ∃ rest, h.walk (roots i) rest = some (.ref a) ∧ path = rest ++ [name] := by
    intro p leads
    cases p with
    | root i => exact ⟨i, [], congrArg some leads, rfl, rfl⟩
    | edge a name =>
      rcases leads with ⟨⟨i, reached⟩, edge⟩
      rcases (h.reaches_iff_walk _ _).mp reached with ⟨rest, walked⟩
      exact ⟨i, rest ++ [name], walk_snoc walked edge, rest, walked, rfl⟩
  rcases path leads with ⟨i, way, walked, shape⟩
  rcases path leads' with ⟨i', way', walked', shape'⟩
  rcases apart b own i i' way way' walked walked' with ⟨rfl, rfl⟩
  cases p with
  | root j =>
    rcases shape with ⟨rfl, rfl⟩
    cases p' with
    | root j' =>
      rcases shape' with ⟨rfl, -⟩
      rfl
    | edge a' name' =>
      rcases shape' with ⟨rest', -, empty⟩
      simp at empty
  | edge a name =>
    rcases shape with ⟨rest, before, rfl⟩
    cases p' with
    | root j' =>
      rcases shape' with ⟨-, empty⟩
      simp at empty
    | edge a' name' =>
      rcases shape' with ⟨rest', before', same⟩
      rcases List.append_inj' same rfl with ⟨rfl, names⟩
      cases names
      cases before.symm.trans before'
      rfl

theorem Apart.alone (apart : h.Apart shared roots) {a : Nat} (own : ¬ shared a) {i : ι} {path : List String}
    (walked : h.walk (roots i) path = some (.ref a)) : h.Alone (roots i) path a :=
  fun path' walked' => (apart a own i i path' path walked' walked).2

theorem Apart.avoids (apart : h.Apart shared roots) {a : Nat} (own : ¬ shared a) {i j : ι} {path : List String}
    (walked : h.walk (roots i) path = some (.ref a)) (other : j ≠ i) : ¬ h.Reaches (roots j) (.ref a) := by
  intro reached
  rcases (h.reaches_iff_walk _ _).mp reached with ⟨path', walked'⟩
  exact other (apart a own j i path' path walked' walked).1

end Positions

section Write

variable {ι : Type} {h : Heap} {shared : Nat → Prop} {roots : ι → Val} {a : Nat} {cell : Cell} {n : Node Val} {e : Edit}
  {name : String} {d s : ι} {path : List String}

def removed (e : Edit) (old : Option Val) : Val :=
  match e, old with
  | .remove, some w => w
  | _, _ => .prim .null

theorem removed_eq_ref {old : Option Val} {b : Nat} (holds : removed e old = .ref b) : e = .remove ∧ old = some (.ref b) := by
  cases e with
  | remove =>
    cases old with
    | none => cases holds
    | some w => exact ⟨rfl, congrArg some holds⟩
  | insert => cases holds
  | replace => cases holds

/-- Where the edit of a cell takes what a position holds afterwards from: a scratch root gives the new
    value and gets what is taken out. -/
inductive TakenFrom (e : Edit) (length : Option Nat) (name : String) (a : Nat) (s : ι) : Position ι → Position ι → Prop
  | root {i : ι} (ordinary : i ≠ s) : TakenFrom e length name a s (.root i) (.root i)
  | removed (removal : e = .remove) : TakenFrom e length name a s (.root s) (.edge a name)
  | inserted {key : String} (origin : e.origin length name key = .inserted) :
      TakenFrom e length name a s (.edge a key) (.root s)
  | kept {key k : String} (origin : e.origin length name key = .kept k) :
      TakenFrom e length name a s (.edge a key) (.edge a k)
  | elsewhere {b : Nat} {key : String} (other : b ≠ a) : TakenFrom e length name a s (.edge b key) (.edge b key)

theorem TakenFrom.injective {length : Option Nat} {p p' q : Position ι} (first : TakenFrom e length name a s p q)
    (second : TakenFrom e length name a s p' q) : p = p' := by
  cases first with
  | root ordinary =>
    cases second with
    | root _ => rfl
    | inserted _ => exact absurd rfl ordinary
  | removed removal =>
    subst removal
    cases second with
    | removed _ => rfl
    | kept origin => exact absurd origin Edit.origin_removed
    | elsewhere other => exact absurd rfl other
  | inserted origin =>
    cases second with
    | root ordinary => exact absurd rfl ordinary
    | inserted origin' => rw [Edit.origin_inserted origin origin']
  | kept origin =>
    cases second with
    | removed removal =>
      subst removal
      exact absurd origin Edit.origin_removed
    | kept origin' => rw [Edit.origin_kept origin origin']
    | elsewhere other => exact absurd rfl other
  | elsewhere other =>
    cases second with
    | removed _ => exact absurd rfl other
    | kept _ => exact absurd rfl other
    | elsewhere _ => rfl

theorem child_write_other {b : Nat} (other : b ≠ a) (cell : Cell) (key : String) :
    (h.write a cell).child (.ref b) key = h.child (.ref b) key := by
  simp only [child_ref, cell_write_other _ _ other]

theorem child_edited {x : Val} (found : h.cell? a = some cell) (applied : e.apply name x cell.node = some n) (key : String) :
    (h.write a n.toCell).child (.ref a) key = (e.origin cell.node.length? name key).value (h.child (.ref a)) x := by
  have old : h.child (.ref a) = cell.node.child := by
    funext k
    simp [found]
  rw [child_ref, cell_write _ _ _ _ (cell_bound found), if_pos rfl, Option.bind_some, Node.child_toCell,
    Edit.child_apply applied, old]

section

variable [DecidableEq ι]

theorem reaches_before (found : h.cell? a = some cell) (applied : e.apply name (roots s) cell.node = some n)
    (at_a : h.Reaches (roots d) (.ref a)) {i : ι} {w : Val}
    (reached : (h.write a n.toCell).Reaches (Function.update roots s (removed e (h.child (.ref a) name)) i) w) :
    ∀ b, w = .ref b → ∃ j, h.Reaches (roots j) w := by
  induction reached with
  | root =>
    intro b holds
    by_cases scratch : i = s
    · rw [scratch, Function.update_self] at holds ⊢
      rw [holds]
      exact ⟨d, .child at_a (removed_eq_ref holds).2⟩
    · rw [Function.update_of_ne scratch]
      exact ⟨i, .root⟩
  | @child v w key _ edge ih =>
    intro b _
    cases v with
    | undefined => cases edge
    | prim p => cases edge
    | ref c =>
      by_cases here : c = a
      · rw [here, child_edited found applied] at edge
        cases origin : e.origin cell.node.length? name key with
        | inserted =>
          rw [origin] at edge
          cases edge
          exact ⟨s, .root⟩
        | kept k =>
          rw [origin] at edge
          exact ⟨d, .child at_a edge⟩
        | absent =>
          rw [origin] at edge
          cases edge
      · rw [child_write_other here] at edge
        rcases ih c rfl with ⟨j, earlier⟩
        exact ⟨j, .child earlier edge⟩

theorem leads_before (found : h.cell? a = some cell) (applied : e.apply name (roots s) cell.node = some n)
    (at_a : h.Reaches (roots d) (.ref a)) {p : Position ι} {b : Nat}
    (leads : (h.write a n.toCell).Leads (Function.update roots s (removed e (h.child (.ref a) name))) p b) :
    ∃ q, TakenFrom e cell.node.length? name a s p q ∧ h.Leads roots q b := by
  cases p with
  | root i =>
    have holds : Function.update roots s (removed e (h.child (.ref a) name)) i = .ref b := leads
    by_cases scratch : i = s
    · rw [scratch, Function.update_self] at holds
      rw [scratch]
      exact ⟨_, .removed (removed_eq_ref holds).1, ⟨d, at_a⟩, (removed_eq_ref holds).2⟩
    · rw [Function.update_of_ne scratch] at holds
      exact ⟨_, .root scratch, holds⟩
  | edge c key =>
    rcases leads with ⟨⟨i, reached⟩, edge⟩
    by_cases here : c = a
    · rw [here, child_edited found applied] at edge
      rw [here]
      cases origin : e.origin cell.node.length? name key with
      | inserted =>
        rw [origin] at edge
        exact ⟨_, .inserted origin, Option.some.inj edge⟩
      | kept k =>
        rw [origin] at edge
        exact ⟨_, .kept origin, ⟨d, at_a⟩, edge⟩
      | absent =>
        rw [origin] at edge
        cases edge
    · rw [child_write_other here] at edge
      exact ⟨_, .elsewhere here, reaches_before found applied at_a reached c rfl, edge⟩

theorem Closed.write (closed : h.Closed shared) (own : ¬ shared a) (cell : Cell) : (h.write a cell).Closed shared := by
  intro b key c held edge
  have other : b ≠ a := by
    intro same
    subst same
    exact own held
  rw [child_write_other other] at edge
  exact closed b key c held edge

/-- An edit of a cell that is not shared keeps all roots apart. -/
theorem Apart.edit (apart : h.Apart shared roots) (closed : h.Closed shared) (own : ¬ shared a) (found : h.cell? a = some cell)
    (applied : e.apply name (roots s) cell.node = some n) (at_a : h.Reaches (roots d) (.ref a)) :
    (h.write a n.toCell).Apart shared (Function.update roots s (removed e (h.child (.ref a) name))) := by
  refine apart_of_positions (closed.write own _) fun b own' p p' leads leads' => ?_
  rcases leads_before found applied at_a leads with ⟨q, first, earlier⟩
  rcases leads_before found applied at_a leads' with ⟨q', second, earlier'⟩
  cases apart.position_unique own' earlier earlier'
  exact first.injective second

end

end Write

end Heap

end Js
