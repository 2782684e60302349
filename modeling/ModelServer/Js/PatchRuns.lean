import ModelServer.Js.PatchSpec

namespace Js
open Relations

namespace Heap

section Patches

variable {ι : Type} {h : Heap} {shared : Nat → Prop} {roots : ι → Val} {trees : ι → Json} {d s : ι}

theorem Agrees.widen {scratch scratch' : ι → Prop} {applied : Applied} {t? : Option Json}
    (agrees : Agrees h shared roots trees d scratch applied t?) (wider : ∀ i, scratch i → scratch' i) :
    Agrees h shared roots trees d scratch' applied t? := by
  have widen : ∀ {h' v t roots' trees'}, Succeeds h shared roots trees d scratch h' v t roots' trees' →
      Succeeds h shared roots trees d scratch' h' v t roots' trees' := fun succeeds =>
    ⟨succeeds.owned, succeeds.keeps, fun i here free => succeeds.others i here fun used => free (wider i used),
      succeeds.root, succeeds.tree⟩
  rcases applied with ⟨h', v?⟩
  cases v? <;> cases t?
  · rcases agrees with ⟨v, t, roots', trees', succeeds⟩
    exact ⟨v, t, roots', trees', widen succeeds⟩
  · exact agrees
  · exact agrees
  · rcases agrees with ⟨roots', trees', succeeds⟩
    exact ⟨roots', trees', widen succeeds⟩

theorem applyOperations_cons {scratch scratch' : ι → Prop} (wider : ∀ i, scratch i → scratch' i) {op : Operation Val}
    {op' : Operation Json} {ops : List (Operation Val)} {ops' : List (Operation Json)}
    (first : Agrees h shared roots trees d scratch (h.applyOperation (roots d) op) (op'.apply (trees d)))
    (rest : ∀ h' v t roots' trees', h.applyOperation (roots d) op = (h', some v) →
      Succeeds h shared roots trees d scratch h' v t roots' trees' →
      Agrees h' shared roots' trees' d scratch' (h'.applyOperations (roots' d) ops) ((trees' d).patched ops')) :
    Agrees h shared roots trees d scratch' (h.applyOperations (roots d) (op :: ops)) ((trees d).patched (op' :: ops')) := by
  rw [applyOperations, Json.patched]
  revert first
  cases applied : h.applyOperation (roots d) op with
  | mk h' v? =>
    cases op'.apply (trees d) <;> cases v? <;> intro first
    · exact first.widen wider
    · cases first
    · cases first
    · rcases first with ⟨roots', trees', succeeds⟩
      have later := rest _ _ _ roots' trees' applied succeeds
      rw [succeeds.root, succeeds.tree] at later
      exact later.rebase succeeds.keeps fun i here free => succeeds.others i here fun used => free (wider i used)

structure Held (h : Heap) (shared : Nat → Prop) (x : Val) (q : Json) : Prop where
  denotes : h.Denotes x q
  cells : ∀ b, h.Reaches x (.ref b) → shared b

theorem Held.keep {h' : Heap} {x : Val} {q : Json} (held : Held h shared x q) (keeps : Keeps shared h h') :
    Held h' shared x q := by
  have same : ∀ a, h.Reaches x (.ref a) → h'.cell? a = h.cell? a := fun a reached => keeps.cells a (held.cells a reached)
  exact ⟨held.denotes.congr same, fun b reached => held.cells b ((reaches_congr same _).mp reached)⟩

theorem rel_of_held [DecidableEq ι] (own : h.Owned shared roots trees) (s : ι) {op : Operation Val} {op' : Operation Json}
    (values : Operation.Rel (Held h shared) op op') :
    ∃ roots₀ trees₀, h.Owned shared roots₀ trees₀ ∧ (∀ i, i ≠ s → roots₀ i = roots i ∧ trees₀ i = trees i) ∧
      Operation.Rel (fun x q => x = roots₀ s ∧ q = trees₀ s) op op' := by
  have put : ∀ x q, Held h shared x q → ∃ roots₀ trees₀, h.Owned shared roots₀ trees₀ ∧
      (∀ i, i ≠ s → roots₀ i = roots i ∧ trees₀ i = trees i) ∧ x = roots₀ s ∧ q = trees₀ s := by
    intro x q held
    refine ⟨_, _, own.put held.denotes held.cells s, fun i ordinary => ?_, ?_, ?_⟩
    · rw [Function.update_of_ne ordinary, Function.update_of_ne ordinary]
      exact ⟨rfl, rfl⟩
    · rw [Function.update_self]
    · rw [Function.update_self]
  cases values with
  | add held =>
    rcases put _ _ held with ⟨roots₀, trees₀, own₀, same, value⟩
    exact ⟨roots₀, trees₀, own₀, same, .add value⟩
  | replace held =>
    rcases put _ _ held with ⟨roots₀, trees₀, own₀, same, value⟩
    exact ⟨roots₀, trees₀, own₀, same, .replace value⟩
  | test held =>
    rcases put _ _ held with ⟨roots₀, trees₀, own₀, same, value⟩
    exact ⟨roots₀, trees₀, own₀, same, .test value⟩
  | remove => exact ⟨roots, trees, own, fun _ _ => ⟨rfl, rfl⟩, .remove⟩
  | move => exact ⟨roots, trees, own, fun _ _ => ⟨rfl, rfl⟩, .move⟩
  | copy => exact ⟨roots, trees, own, fun _ _ => ⟨rfl, rfl⟩, .copy⟩
  | invalid => exact ⟨roots, trees, own, fun _ _ => ⟨rfl, rfl⟩, .invalid⟩

/-- A patch that changes no shared cell does to a document in the heap what it does to the document,
    though its values are shared. -/
theorem applyOperations_held [DecidableEq ι] {ops : List (Operation Val)} {ops' : List (Operation Json)} (ne : d ≠ s) :
    ∀ {h : Heap} {roots : ι → Val} {trees : ι → Json}, h.Owned shared roots trees →
      List.Forall₂ (Operation.Rel (Held h shared)) ops ops' → Spares shared h (roots d) ops →
      Agrees h shared roots trees d (· = s) (h.applyOperations (roots d) ops) ((trees d).patched ops') := by
  induction ops generalizing ops' with
  | nil =>
    intro h roots trees own values _
    cases values
    exact ⟨roots, trees, own, .refl shared h, fun _ _ _ => ⟨rfl, rfl⟩, rfl, rfl⟩
  | cons op ops ih =>
    intro h roots trees own values spares
    cases values with
    | @cons _ op' _ ops' value values =>
      rcases rel_of_held own s value with ⟨roots₀, trees₀, own₀, same, value₀⟩
      have start := same d ne
      have first := applyOperation_agrees own₀ ne value₀ (by
        rw [start.1]
        exact spares.1)
      rw [start.1, start.2] at first
      refine applyOperations_cons (fun _ => id) (first.rebase (.refl shared h) fun i _ free => same i free)
        fun h' v t roots' trees' applied succeeds => ih succeeds.owned ?_ ?_
      · exact values.imp fun op op' value => value.mono fun x q held => held.keep succeeds.keeps
      · rw [succeeds.root]
        exact spares.2 h' v applied

theorem applyOperations_slots [DecidableEq ι] {ops : List (Operation Val)} {ops' : List (Operation Json)} :
    ∀ {h : Heap} {roots : ι → Val} {trees : ι → Json} {slot : Nat → ι}, Function.Injective slot → (∀ k, d ≠ slot k) →
      h.Owned (fun _ => False) roots trees → ops.length = ops'.length →
      (∀ (k : Nat) op op', ops[k]? = some op → ops'[k]? = some op' →
        Operation.Rel (fun x q => x = roots (slot k) ∧ q = trees (slot k)) op op') →
      Agrees h (fun _ => False) roots trees d (fun i => ∃ k, i = slot k) (h.applyOperations (roots d) ops)
        ((trees d).patched ops') := by
  induction ops generalizing ops' with
  | nil =>
    intro h roots trees slot _ _ own length _
    cases ops' with
    | nil => exact ⟨roots, trees, own, .refl _ h, fun _ _ _ => ⟨rfl, rfl⟩, rfl, rfl⟩
    | cons op' ops' => cases length
  | cons op ops ih =>
    intro h roots trees slot injective ne own length values
    cases ops' with
    | nil => cases length
    | cons op' ops' =>
      have first := applyOperation_agrees own (ne 0) (values 0 op op' rfl rfl) fun _ _ => id
      refine applyOperations_cons (fun i here => ⟨0, here⟩) first fun h' v t roots' trees' applied succeeds => ?_
      have later : ∀ k, roots' (slot (k + 1)) = roots (slot (k + 1)) ∧ trees' (slot (k + 1)) = trees (slot (k + 1)) :=
        fun k => succeeds.others _ (ne (k + 1)).symm fun same => Nat.succ_ne_zero k (injective same)
      have injective' : Function.Injective fun k => slot (k + 1) := fun k k' same => Nat.succ.inj (injective same)
      have rest := ih injective' (fun k => ne (k + 1)) succeeds.owned (Nat.succ.inj length) fun k op op' at_k at_k' => by
        rw [(later k).1, (later k).2]
        exact values (k + 1) op op' at_k at_k'
      exact rest.widen fun i used => used.elim fun k here => ⟨k + 1, here⟩

end Patches

section Reading

variable {h : Heap} {patch : Val} {j : Json}

theorem string_of_denotes {x : Val} {q : Json} (d : h.Denotes x q) : string? x = q.string? := by
  cases q with
  | prim p =>
    cases d.eq_prim
    cases p <;> rfl
  | arr elems =>
    rcases d.of_arr with ⟨a, vs, rfl, -⟩
    rfl
  | obj props =>
    rcases d.of_obj with ⟨a, ps, rfl, -⟩
    rfl

theorem strings_of_denotes {x : Val} {q : Json} (d : h.Denotes x q) (key : String) :
    (h.child x key).bind string? = (q.child key).bind Json.string? := by
  have below := d.children key
  revert below
  cases h.child x key <;> cases q.child key <;> intro below
  · rfl
  · cases below
  · cases below
  · cases below with
    | some denotes => exact string_of_denotes denotes

theorem operations_at (d : h.Denotes patch j) : (h.operations patch).length = j.operations.length ∧
    ∀ (k : Nat) op op', (h.operations patch)[k]? = some op → j.operations[k]? = some op' →
      ∃ x q, h.child patch (indexName k) = some x ∧ j.child (indexName k) = some q ∧ h.Denotes x q ∧
        op = .ofChild (h.child x) string? ∧ op' = .ofChild q.child Json.string? := by
  cases j with
  | prim p =>
    cases d.eq_prim
    exact ⟨rfl, fun k op op' at_k => by cases at_k⟩
  | obj props =>
    rcases d.of_obj with ⟨a, ps, rfl, found⟩
    simp [operations, found, Json.operations]
  | arr elems =>
    rcases d.of_arr with ⟨a, vs, rfl, found, length⟩
    simp only [operations, found, Json.operations, List.length_map, List.getElem?_map, Option.map_eq_some_iff]
    refine ⟨length, fun k op op' at_k at_k' => ?_⟩
    rcases at_k with ⟨x, here, rfl⟩
    rcases at_k' with ⟨q, here', rfl⟩
    have edge : h.child (.ref a) (indexName k) = some x := by simp [found, Cell.child, here]
    have below : (Json.arr elems).child (indexName k) = some q := by simp [Json.child, here']
    rcases d.child edge with ⟨q', below', denotes⟩
    cases below.symm.trans below'
    exact ⟨x, q, edge, below, denotes, rfl, rfl⟩

theorem operations_held {shared : Nat → Prop} (held : Held h shared patch j) :
    List.Forall₂ (Operation.Rel (Held h shared)) (h.operations patch) j.operations := by
  rcases operations_at held.denotes with ⟨length, each⟩
  refine List.forall₂_iff_get.mpr ⟨length, fun k bound bound' => ?_⟩
  rcases each k _ _ (List.getElem?_eq_getElem bound) (List.getElem?_eq_getElem bound') with ⟨x, q, edge, -, dx, same, same'⟩
  rw [List.get_eq_getElem, List.get_eq_getElem, same, same']
  refine Operation.ofChild_rel (rel_mono (dx.children "value") fun w c below _ denotes => ⟨denotes, fun b reached => ?_⟩)
    (strings_of_denotes dx)
  rcases (h.reaches_iff_walk w _).mp reached with ⟨rest, walked⟩
  have whole : h.walk patch (indexName k :: "value" :: rest) = some (.ref b) := by
    simp only [walk, edge, below, Option.bind_some]
    exact walked
  exact held.cells b ((h.reaches_iff_walk patch _).mpr ⟨_, whole⟩)

end Reading

section Part

variable {ι : Type} {h : Heap} {roots : ι → Val} {trees : ι → Json} {p : Val} {q : Json}

def operand (h : Heap) (p : Val) (k : Nat) : Val := ((h.child p (indexName k)).bind (h.child · "value")).getD (.prim .null)

def operandTree (q : Json) (k : Nat) : Json := ((q.child (indexName k)).bind (Json.child · "value")).getD (.prim .null)

theorem operand_denotes (d : h.Denotes p q) (k : Nat) : h.Denotes (h.operand p k) (operandTree q k) := by
  have below : Option.Rel h.Denotes ((h.child p (indexName k)).bind (h.child · "value"))
      ((q.child (indexName k)).bind (Json.child · "value")) :=
    rel_bind (d.children (indexName k)) fun x c _ _ dx => dx.children "value"
  unfold operand operandTree
  revert below
  cases (h.child p (indexName k)).bind (h.child · "value") <;>
    cases (q.child (indexName k)).bind (Json.child · "value") <;> intro below
  · exact denotes_prim h .null
  · cases below
  · cases below
  · cases below with
    | some denotes => exact denotes

theorem operand_walk {k b : Nat} (holds : h.operand p k = .ref b) : h.walk p [indexName k, "value"] = some (.ref b) := by
  unfold operand at holds
  cases edge : h.child p (indexName k) with
  | none => simp [edge] at holds
  | some x =>
    cases below : h.child x "value" with
    | none => simp [edge, below] at holds
    | some w =>
      simp only [edge, below, Option.bind_some, Option.getD_some] at holds
      simp [walk, edge, below, holds]

theorem operations_operand (d : h.Denotes p q) (k : Nat) (op : Operation Val) (op' : Operation Json)
    (at_k : (h.operations p)[k]? = some op) (at_k' : q.operations[k]? = some op') :
    Operation.Rel (fun x y => x = h.operand p k ∧ y = operandTree q k) op op' := by
  rcases (operations_at d).2 k op op' at_k at_k' with ⟨x, c, edge, below, dx, rfl, rfl⟩
  have operand_eq : h.operand p k = (h.child x "value").getD (.prim .null) := by simp [operand, edge]
  have tree_eq : operandTree q k = (c.child "value").getD (.prim .null) := by simp [operandTree, below]
  rw [operand_eq, tree_eq]
  refine Operation.ofChild_rel (rel_mono (dx.children "value") fun w t found found' _ => ?_) (strings_of_denotes dx)
  rw [found, found']
  exact ⟨rfl, rfl⟩

/-- The roots without the one that holds the patch, and the values of its operations. -/
def spread [DecidableEq ι] (roots : ι → Val) (r : ι) (h : Heap) (p : Val) : ι ⊕ Nat → Val
  | .inl i => Function.update roots r (.prim .null) i
  | .inr k => h.operand p k

def spreadTrees [DecidableEq ι] (trees : ι → Json) (r : ι) (q : Json) : ι ⊕ Nat → Json
  | .inl i => Function.update trees r (.prim .null) i
  | .inr k => operandTree q k

variable [DecidableEq ι] {r d : ι} {path : List String}

theorem Owned.spread (own : h.Owned (fun _ => False) roots trees) (walked : h.walk (roots r) path = some p)
    (dp : h.Denotes p q) : h.Owned (fun _ => False) (spread roots r h p) (spreadTrees trees r q) := by
  refine ⟨fun i => ?_, ?_, own.closed, own.live⟩
  · cases i with
    | inl i => exact update_denotes own.denotes (denotes_prim h .null) r i
    | inr k => exact operand_denotes dp k
  · refine own.apart.parts (fun i => match i with
      | .inl i => (i, [])
      | .inr k => (r, path ++ [indexName k, "value"])) (fun i b holds => ?_) fun i i' b b' rest rest' holds holds' same ways => ?_
    · cases i with
      | inl i =>
        have other : i ≠ r := by
          intro same
          subst same
          simp [Heap.spread] at holds
        simpa [Heap.spread, Function.update_of_ne other, walk] using holds
      | inr k =>
        rw [walk_append, walked]
        exact operand_walk holds
    · have other : ∀ {i b}, Heap.spread roots r h p (.inl i) = .ref b → i ≠ r := by
        intro i b holds same
        subst same
        simp [Heap.spread] at holds
      cases i with
      | inl i =>
        cases i' with
        | inl i' => exact congrArg Sum.inl same
        | inr k' => exact absurd same (other holds)
      | inr k =>
        cases i' with
        | inl i' => exact absurd same.symm (other holds')
        | inr k' =>
          simp only [List.append_assoc, List.append_cancel_left_eq, List.cons_append, List.cons.injEq] at ways
          exact congrArg Sum.inr (indexName_injective ways.1)

/-- A patch that is part of one root does to another root what it does to the document. The root it was
    part of is given up, and all others are left alone. -/
theorem applyPatch_of_part (own : h.Owned (fun _ => False) roots trees) (ne : d ≠ r)
    (walked : h.walk (roots r) path = some p) (dp : h.Denotes p q) :
    Option.Rel (fun v t => (h.applyPatch (roots d) p).1.Owned (fun _ => False)
        (Function.update (Function.update roots r (.prim .null)) d v) (Function.update (Function.update trees r (.prim .null)) d t))
      (h.applyPatch (roots d) p).2 ((trees d).patched q.operations) ∧
    ∀ i, i ≠ d → i ≠ r → (h.applyPatch (roots d) p).1.Denotes (roots i) (trees i) := by
  have agrees := applyOperations_slots (d := (Sum.inl d : ι ⊕ Nat)) Sum.inr_injective (fun _ => Sum.inl_ne_inr)
    (own.spread walked dp) (operations_at dp).1 (operations_operand dp)
  have at_root : ∀ i, i ≠ r → spread roots r h p (.inl i) = roots i ∧ spreadTrees trees r q (.inl i) = trees i :=
    fun i other => ⟨Function.update_of_ne other _ _, Function.update_of_ne other _ _⟩
  rw [(at_root d ne).1, (at_root d ne).2] at agrees
  have kept : ∀ {h' v t roots' trees'}, Succeeds h (fun _ => False) (spread roots r h p) (spreadTrees trees r q) (.inl d)
      (fun i => ∃ k, i = .inr k) h' v t roots' trees' →
      h'.Owned (fun _ => False) (Function.update (Function.update roots r (.prim .null)) d v)
        (Function.update (Function.update trees r (.prim .null)) d t) := by
    intro h' v t roots' trees' succeeds
    have others : ∀ i, i ≠ d → roots' (.inl i) = Function.update roots r (.prim .null) i ∧
        trees' (.inl i) = Function.update trees r (.prim .null) i :=
      fun i here => succeeds.others (.inl i) (fun same => here (Sum.inl.inj same)) (by simp)
    have values : roots' ∘ Sum.inl = Function.update (Function.update roots r (.prim .null)) d v :=
      (Function.eq_update_iff).mpr ⟨succeeds.root, fun i here => (others i here).1⟩
    have documents : trees' ∘ Sum.inl = Function.update (Function.update trees r (.prim .null)) d t :=
      (Function.eq_update_iff).mpr ⟨succeeds.tree, fun i here => (others i here).2⟩
    rw [← values, ← documents]
    exact succeeds.owned.comap Sum.inl_injective
  have others : ∀ {h' : Heap} {v t}, h'.Owned (fun _ => False) (Function.update (Function.update roots r (.prim .null)) d v)
      (Function.update (Function.update trees r (.prim .null)) d t) → ∀ i, i ≠ d → i ≠ r → h'.Denotes (roots i) (trees i) := by
    intro h' v t own' i here other
    have denotes := own'.denotes i
    rw [Function.update_of_ne here, Function.update_of_ne here, Function.update_of_ne other, Function.update_of_ne other] at denotes
    exact denotes
  unfold applyPatch
  revert agrees
  cases applied : h.applyOperations (roots d) (h.operations p) with
  | mk h' v? =>
    cases (trees d).patched q.operations <;> cases v? <;> intro agrees
    · rcases agrees with ⟨v, t, roots', trees', succeeds⟩
      exact ⟨.none, others (kept succeeds)⟩
    · cases agrees
    · cases agrees
    · rcases agrees with ⟨roots', trees', succeeds⟩
      exact ⟨.some (kept succeeds), others (kept succeeds)⟩

end Part

end Heap

end Js
