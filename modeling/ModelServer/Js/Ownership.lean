import ModelServer.Js.Owned

namespace Js

namespace Heap

section Roots

variable {ι : Type} {h h' : Heap} {shared : Nat → Prop} {roots : ι → Val} {trees : ι → Json}

/-- Roots that read as documents, each in cells of its own apart from shared ones. -/
structure Owned (h : Heap) (shared : Nat → Prop) (roots : ι → Val) (trees : ι → Json) : Prop where
  denotes : ∀ i, h.Denotes (roots i) (trees i)
  apart : h.Apart shared roots
  closed : h.Closed shared
  live : ∀ a, shared a → a < h.size

structure Keeps (shared : Nat → Prop) (h h' : Heap) : Prop where
  size : h.size ≤ h'.size
  cells : ∀ a, shared a → h'.cell? a = h.cell? a

theorem Keeps.refl (shared : Nat → Prop) (h : Heap) : Keeps shared h h := ⟨Nat.le_refl _, fun _ _ => rfl⟩

theorem Keeps.trans {h'' : Heap} (first : Keeps shared h h') (second : Keeps shared h' h'') : Keeps shared h h'' :=
  ⟨first.size.trans second.size, fun a held => (second.cells a held).trans (first.cells a held)⟩

theorem Keeps.write {a : Nat} (own : ¬ shared a) (cell : Cell) : Keeps shared h (h.write a cell) := by
  refine ⟨by simp, fun b held => cell_write_other _ _ ?_⟩
  intro same
  subst same
  exact own held

theorem Apart.parts {κ : Type} {roots' : κ → Val} (apart : h.Apart shared roots) (part : κ → ι × List String)
    (reads : ∀ i b, roots' i = .ref b → h.walk (roots (part i).1) (part i).2 = some (.ref b))
    (different : ∀ i i' b b' rest rest', roots' i = .ref b → roots' i' = .ref b' → (part i).1 = (part i').1 →
      (part i).2 ++ rest = (part i').2 ++ rest' → i = i') : h.Apart shared roots' := by
  have ref : ∀ i path b, h.walk (roots' i) path = some (.ref b) → ∃ c, roots' i = .ref c := by
    intro i path b walked
    cases root : roots' i with
    | ref c => exact ⟨c, rfl⟩
    | undefined => cases path <;> simp [root, walk, child] at walked
    | prim p => cases path <;> simp [root, walk, child] at walked
  have whole : ∀ i path b, h.walk (roots' i) path = some (.ref b) →
      h.walk (roots (part i).1) ((part i).2 ++ path) = some (.ref b) := by
    intro i path b walked
    rcases ref i path b walked with ⟨c, root⟩
    rw [walk_append, reads i c root, ← root]
    exact walked
  intro b own i i' path path' walked walked'
  rcases apart b own _ _ _ _ (whole i path b walked) (whole i' path' b walked') with ⟨roots_eq, paths_eq⟩
  rcases ref i path b walked with ⟨c, root⟩
  rcases ref i' path' b walked' with ⟨c', root'⟩
  cases different i i' c c' path path' root root' roots_eq paths_eq
  exact ⟨rfl, List.append_cancel_left paths_eq⟩

theorem walk_prim_ref {p : Prim} {path : List String} {b : Nat} : h.walk (.prim p) path ≠ some (.ref b) := by
  cases path <;> simp [walk, child]

theorem owned_null (h : Heap) : h.Owned (fun _ => False) (fun _ : ι => .prim .null) fun _ => .prim .null :=
  ⟨fun _ => denotes_prim h .null, fun _ _ _ _ _ _ walked => absurd walked walk_prim_ref, fun _ _ _ held => held.elim,
    fun _ held => held.elim⟩

theorem Owned.later (own : h.Owned shared roots trees) (size : h.size ≤ h'.size)
    (old : ∀ a < h.size, h'.cell? a = h.cell? a) : h'.Owned shared roots trees := by
  have same : ∀ i a, h.Reaches (roots i) (.ref a) → h'.cell? a = h.cell? a :=
    fun i a reached => old a ((own.denotes i).reached_bound reached)
  refine ⟨fun i => (own.denotes i).congr (same i), ?_, ?_, fun a held => (own.live a held).trans_le size⟩
  · intro b private_b i i' path path' walked walked'
    rw [walk_congr (same i)] at walked
    rw [walk_congr (same i')] at walked'
    exact own.apart b private_b i i' path path' walked walked'
  · intro a name b held edge
    rw [child_ref, old a (own.live a held)] at edge
    exact own.closed a name b held edge

theorem Owned.comap {κ : Type} {f : κ → ι} (own : h.Owned shared roots trees) (injective : Function.Injective f) :
    h.Owned shared (roots ∘ f) (trees ∘ f) := by
  refine ⟨fun i => own.denotes (f i), fun b private_b i i' path path' walked walked' => ?_, own.closed, own.live⟩
  rcases own.apart b private_b _ _ path path' walked walked' with ⟨same, paths⟩
  exact ⟨injective same, paths⟩

theorem Owned.share (own : h.Owned shared roots trees) {more : Nat → Prop} (closed : h.Closed more)
    (live : ∀ a, more a → a < h.size) : h.Owned (fun a => shared a ∨ more a) roots trees := by
  refine ⟨own.denotes, fun b private_b => own.apart b fun held => private_b (.inl held), ?_, ?_⟩
  · intro a name b held edge
    exact held.imp (own.closed a name b · edge) (closed a name b · edge)
  · intro a held
    exact held.elim (own.live a) (live a)

theorem Keeps.of_old (own : h.Owned shared roots trees) (size : h.size ≤ h'.size)
    (old : ∀ a < h.size, h'.cell? a = h.cell? a) : Keeps shared h h' :=
  ⟨size, fun a held => old a (own.live a held)⟩

section Slots

variable [DecidableEq ι] {s d : ι}

theorem update_denotes {x : Val} {q : Json} (denotes : ∀ i, h.Denotes (roots i) (trees i)) (dx : h.Denotes x q) (s i : ι) :
    h.Denotes (Function.update roots s x i) (Function.update trees s q i) := by
  by_cases here : i = s
  · rw [here, Function.update_self, Function.update_self]
    exact dx
  · rw [Function.update_of_ne here, Function.update_of_ne here]
    exact denotes i

theorem Owned.put (own : h.Owned shared roots trees) {x : Val} {q : Json} (dx : h.Denotes x q)
    (cells : ∀ b, h.Reaches x (.ref b) → shared b) (s : ι) :
    h.Owned shared (Function.update roots s x) (Function.update trees s q) := by
  refine ⟨update_denotes own.denotes dx s, ?_, own.closed, own.live⟩
  intro b private_b i i' path path' walked walked'
  have ordinary : ∀ i path, h.walk (Function.update roots s x i) path = some (.ref b) → i ≠ s := by
    intro i path walked same
    subst same
    rw [Function.update_self] at walked
    exact private_b (cells b ((h.reaches_iff_walk _ _).mpr ⟨path, walked⟩))
  have first := ordinary i path walked
  have second := ordinary i' path' walked'
  rw [Function.update_of_ne first] at walked
  rw [Function.update_of_ne second] at walked'
  exact own.apart b private_b i i' path path' walked walked'

theorem Owned.putNull (own : h.Owned shared roots trees) (s : ι) :
    h.Owned shared (Function.update roots s (.prim .null)) (Function.update trees s (.prim .null)) := by
  refine own.put (denotes_prim h .null) (fun b reached => ?_) s
  rcases (h.reaches_iff_walk _ _).mp reached with ⟨path, walked⟩
  exact absurd walked walk_prim_ref

theorem Owned.putFresh (own : h.Owned shared roots trees) {x : Val} {q : Json} (stored : Stored h q h' x) (s : ι) :
    h'.Owned shared (Function.update roots s x) (Function.update trees s q) := by
  have later := own.later stored.size stored.old
  refine ⟨update_denotes later.denotes stored.denotes s, ?_, later.closed, later.live⟩
  have old : ∀ i path b, h'.walk (roots i) path = some (.ref b) → b < h.size := by
    intro i path b walked
    have same : ∀ a, h.Reaches (roots i) (.ref a) → h'.cell? a = h.cell? a :=
      fun a reached => stored.old a ((own.denotes i).reached_bound reached)
    rw [walk_congr same] at walked
    exact (own.denotes i).reached_bound ((h.reaches_iff_walk _ _).mpr ⟨path, walked⟩)
  have fresh : ∀ path b, h'.walk x path = some (.ref b) → h.size ≤ b :=
    fun path b walked => stored.fresh b ((h'.reaches_iff_walk _ _).mpr ⟨path, walked⟩)
  intro b private_b i i' path path' walked walked'
  by_cases here : i = s
  · rw [here, Function.update_self] at walked
    by_cases here' : i' = s
    · rw [here', Function.update_self] at walked'
      exact ⟨here.trans here'.symm, stored.tree path path' b walked walked'⟩
    · rw [Function.update_of_ne here'] at walked'
      exact absurd (old i' path' b walked') (Nat.not_lt_of_ge (fresh path b walked))
  · rw [Function.update_of_ne here] at walked
    by_cases here' : i' = s
    · rw [here', Function.update_self] at walked'
      exact absurd (old i path b walked) (Nat.not_lt_of_ge (fresh path' b walked'))
    · rw [Function.update_of_ne here'] at walked'
      exact later.apart b private_b i i' path path' walked walked'

theorem Owned.part (own : h.Owned shared roots trees) {x : Val} {q : Json} {path : List String}
    (walked : h.walk (roots d) path = some x) (dx : h.Denotes x q) :
    h.Owned shared (Function.update roots d x) (Function.update trees d q) := by
  refine ⟨update_denotes own.denotes dx d, ?_, own.closed, own.live⟩
  refine own.apart.parts (fun i => if i = d then (d, path) else (i, [])) (fun i b root => ?_)
    fun i i' b b' rest rest' _ _ same _ => ?_
  · by_cases here : i = d
    · rw [here, Function.update_self] at root
      simp only [here, if_true, ← root]
      exact walked
    · rw [Function.update_of_ne here] at root
      simp only [here, if_false, walk, root]
  · by_cases here : i = d <;> by_cases here' : i' = d <;> simp_all

theorem Owned.takeOver (own : h.Owned shared roots trees) (ne : d ≠ s) :
    h.Owned shared (Function.update (Function.update roots d (roots s)) s (.prim .null))
      (Function.update (Function.update trees d (trees s)) s (.prim .null)) := by
  refine ⟨update_denotes (update_denotes own.denotes (own.denotes s) d) (denotes_prim h .null) s, ?_, own.closed, own.live⟩
  refine own.apart.parts (fun i => if i = d then (s, []) else (i, [])) (fun i b root => ?_)
    fun i i' b b' rest rest' root root' same _ => ?_
  · by_cases scratch : i = s
    · rw [scratch, Function.update_self] at root
      cases root
    · rw [Function.update_of_ne scratch] at root
      by_cases here : i = d
      · rw [here, Function.update_self] at root
        simp only [here, if_true, walk, root]
      · rw [Function.update_of_ne here] at root
        simp only [here, if_false, walk, root]
  · have ordinary : ∀ {i b}, Function.update (Function.update roots d (roots s)) s (.prim .null) i = .ref b → i ≠ s := by
      intro i b root same
      subst same
      rw [Function.update_self] at root
      cases root
    have first := ordinary root
    have second := ordinary root'
    by_cases here : i = d <;> by_cases here' : i' = d <;> simp_all

end Slots

end Roots

end Heap

end Js
