import Mathlib.Data.List.Basic
import Mathlib.Data.List.Induction

namespace Runs

section Systems

/-- A system in which an action that is possible in a state leads to one other state. -/
structure System (σ α : Type) where
  init : σ
  step : σ → α → Option σ

variable {σ α : Type} {S : System σ α}

/-- The runs all of whose steps meet a condition on the state before the step and the action. -/
inductive Run (S : System σ α) (ok : σ → α → Prop) : σ → List α → σ → Prop
  | nil (s : σ) : Run S ok s [] s
  | cons {s s' s'' : σ} {a : α} {as : List α} (meets : ok s a) (stepped : S.step s a = some s')
      (rest : Run S ok s' as s'') : Run S ok s (a :: as) s''

abbrev Reached (S : System σ α) (ok : σ → α → Prop) (as : List α) (s : σ) : Prop := Run S ok S.init as s

namespace Run

variable {ok ok' : σ → α → Prop} {s s' : σ} {as : List α}

/-- What every step that meets the condition preserves holds at the end of a run. -/
theorem invariant {inv : σ → Prop} (preserved : ∀ s a s', inv s → ok s a → S.step s a = some s' → inv s')
    (run : Run S ok s as s') (start : inv s) : inv s' := by
  induction run with
  | nil s => exact start
  | cons meets stepped rest ih => exact ih (preserved _ _ _ start meets stepped)

theorem mono (weaker : ∀ s a, ok s a → ok' s a) (run : Run S ok s as s') : Run S ok' s as s' := by
  induction run with
  | nil s => exact .nil s
  | cons meets stepped rest ih => exact .cons (weaker _ _ meets) stepped ih

/-- A system that can follow every step that meets the condition can follow every run. -/
theorem simulates {τ : Type} {T : System τ α} {R : σ → τ → Prop}
    (follows : ∀ s t a s', R s t → ok s a → S.step s a = some s' → ∃ t', T.step t a = some t' ∧ R s' t')
    (run : Run S ok s as s') : ∀ t, R s t → ∃ t', Run T (fun _ _ => True) t as t' ∧ R s' t' := by
  induction run with
  | nil s => exact fun t related => ⟨t, .nil t, related⟩
  | cons meets stepped rest ih =>
    intro t related
    rcases follows _ _ _ _ related meets stepped with ⟨t₁, followed, related₁⟩
    rcases ih t₁ related₁ with ⟨t₂, run, related₂⟩
    exact ⟨t₂, .cons trivial followed run, related₂⟩

end Run

end Systems

section LastWrite

variable {σ α κ β : Type}

/-- Each action overwrites the places it touches and leaves the others as they are. -/
structure Overwrites (step : σ → α → σ) (read : σ → κ → β) (touches : α → κ → Bool) (written : α → κ → β)
    (ok : α → Prop) : Prop where
  touched : ∀ s a k, ok a → touches a k = true → read (step s a) k = written a k
  untouched : ∀ s a k, ok a → touches a k = false → read (step s a) k = read s k

def lastTouching (touches : α → κ → Bool) (actions : List α) (k : κ) : Option α :=
  (actions.filter (touches · k)).getLast?

variable {step : σ → α → σ} {read : σ → κ → β} {touches : α → κ → Bool} {written : α → κ → β} {ok : α → Prop}

theorem lastTouching_append (actions : List α) (a : α) (k : κ) :
    lastTouching touches (actions ++ [a]) k = if touches a k then some a else lastTouching touches actions k := by
  rw [lastTouching, List.filter_append]
  cases here : touches a k with
  | true => simp [here]
  | false => simp [here, lastTouching]

/-- What is read after a run is what the last action that touches the place has written there. -/
theorem Overwrites.read_run (o : Overwrites step read touches written ok) {actions : List α} (all : ∀ a ∈ actions, ok a)
    (s : σ) (k : κ) :
    read (actions.foldl step s) k = ((lastTouching touches actions k).map (written · k)).getD (read s k) := by
  induction actions using List.reverseRecOn with
  | nil => rfl
  | append_singleton actions a ih =>
    rcases List.forall_mem_append.mp all with ⟨before, last⟩
    rw [List.foldl_append, List.foldl_cons, List.foldl_nil, lastTouching_append]
    cases here : touches a k with
    | true =>
      rw [o.touched _ _ _ (last a (List.mem_singleton_self a)) here]
      rfl
    | false =>
      rw [o.untouched _ _ _ (last a (List.mem_singleton_self a)) here, ih before]
      rfl

end LastWrite

end Runs
