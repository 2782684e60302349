import ModelServer.Js.Ownership

namespace Js
open Relations

namespace Heap

section Spec

variable {ι : Type} {h : Heap} {shared : Nat → Prop} {roots : ι → Val} {trees : ι → Json} {d s : ι}

/-- A call that ended with a document, as the call on documents did: the root of the document has changed,
    and perhaps some scratch roots. -/
structure Succeeds (h : Heap) (shared : Nat → Prop) (roots : ι → Val) (trees : ι → Json) (d : ι) (scratch : ι → Prop)
    (h' : Heap) (v : Val) (t : Json) (roots' : ι → Val) (trees' : ι → Json) : Prop where
  owned : h'.Owned shared roots' trees'
  keeps : Keeps shared h h'
  others : ∀ i, i ≠ d → ¬ scratch i → roots' i = roots i ∧ trees' i = trees i
  root : roots' d = v
  tree : trees' d = t

def Agrees (h : Heap) (shared : Nat → Prop) (roots : ι → Val) (trees : ι → Json) (d : ι) (scratch : ι → Prop)
    (applied : Applied) (t? : Option Json) : Prop :=
  match applied, t? with
  | (h', some v), some t => ∃ roots' trees', Succeeds h shared roots trees d scratch h' v t roots' trees'
  | (h', none), none => ∃ v t roots' trees', Succeeds h shared roots trees d scratch h' v t roots' trees'
  | _, _ => False

theorem Agrees.failed (own : h.Owned shared roots trees) {scratch : ι → Prop} : Agrees h shared roots trees d scratch (h, none) none :=
  ⟨roots d, trees d, roots, trees, own, .refl shared h, fun _ _ _ => ⟨rfl, rfl⟩, rfl, rfl⟩

def removedTree (e : Edit) (old : Option Json) : Json :=
  match e, old with
  | .remove, some c => c
  | _, _ => .prim .null

theorem walk_rel {v : Val} {t : Json} (dv : h.Denotes v t) (path : List String) :
    Option.Rel h.Denotes (h.walk v path) (t.at? path) := by
  induction path generalizing v t with
  | nil => exact .some dv
  | cons key path ih =>
    rw [walk, Json.at?]
    exact rel_bind (dv.children key) fun w c _ _ denotes => ih denotes

theorem walk_edge {v : Val} {path : List String} {name : String} {a : Nat} (walked : h.walk v path = some (.ref a)) :
    h.walk v (path ++ [name]) = h.child (.ref a) name := by
  rw [walk_append, walked, Option.bind_some, walk]
  cases h.child (.ref a) name <;> rfl

theorem Agrees.rebase {h₀ : Heap} {roots₀ : ι → Val} {trees₀ : ι → Json} {scratch : ι → Prop} {applied : Applied}
    {t? : Option Json} (agrees : Agrees h shared roots trees d scratch applied t?) (keeps : Keeps shared h₀ h)
    (same : ∀ i, i ≠ d → ¬ scratch i → roots i = roots₀ i ∧ trees i = trees₀ i) :
    Agrees h₀ shared roots₀ trees₀ d scratch applied t? := by
  have others : ∀ {h' v t roots' trees'}, Succeeds h shared roots trees d scratch h' v t roots' trees' →
      Succeeds h₀ shared roots₀ trees₀ d scratch h' v t roots' trees' := by
    intro h' v t roots' trees' succeeds
    refine ⟨succeeds.owned, keeps.trans succeeds.keeps, fun i here free => ?_, succeeds.root, succeeds.tree⟩
    have first := succeeds.others i here free
    have second := same i here free
    exact ⟨first.1.trans second.1, first.2.trans second.2⟩
  rcases applied with ⟨h', v?⟩
  cases v? with
  | some v =>
    cases t? with
    | some t =>
      rcases agrees with ⟨roots', trees', succeeds⟩
      exact ⟨roots', trees', others succeeds⟩
    | none => exact agrees
  | none =>
    cases t? with
    | some t => exact agrees
    | none =>
      rcases agrees with ⟨v, t, roots', trees', succeeds⟩
      exact ⟨v, t, roots', trees', others succeeds⟩

theorem orFail_agrees {scratch : ι → Prop} {r? : Option (Heap × Val)} {t? : Option Json} (own : h.Owned shared roots trees)
    (related : Option.Rel (fun r t => ∃ roots' trees', Succeeds h shared roots trees d scratch r.1 r.2 t roots' trees') r? t?) :
    Agrees h shared roots trees d scratch (orFail h r?) t? := by
  cases related with
  | some succeeds => exact succeeds
  | none => exact .failed own

theorem alike_congr {a a' b b' : Json} (first : a.Same a') (second : b.Same b') : a.alike b = a'.alike b' := by
  rw [Bool.eq_iff_iff, Json.alike_iff, Json.alike_iff]
  exact ⟨fun same => first.symm.trans (same.trans second), fun same => first.trans (same.trans second.symm)⟩

theorem pointer_agrees (own : h.Owned shared roots trees) {path : String} {run : List String → Option (Heap × Val)}
    {apply : List String → Option Json}
    (each : ∀ target, pointer path = some target →
      Agrees h shared roots trees d (· = s) (orFail h (run target)) (apply target)) :
    Agrees h shared roots trees d (· = s) (orFail h do let target ← pointer path; run target)
      (do let target ← pointer path; apply target) := by
  cases at_path : pointer path with
  | none => exact .failed own
  | some target => exact each target at_path

theorem source_agrees (own : h.Owned shared roots trees) {start : List String} {run : Val → Applied}
    {apply : Json → Option Json}
    (each : ∀ x q, h.walk (roots d) start = some x → (trees d).at? start = some q → h.Denotes x q →
      Agrees h shared roots trees d (· = s) (run x) (apply q)) :
    Agrees h shared roots trees d (· = s) (match h.walk (roots d) start with
        | some x => run x
        | none => (h, none))
      (do let q ← (trees d).at? start; apply q) := by
  have below := walk_rel (own.denotes d) start
  cases walked : h.walk (roots d) start with
  | none =>
    rw [walked] at below
    cases found : (trees d).at? start with
    | none => exact .failed own
    | some q =>
      rw [found] at below
      cases below
  | some x =>
    rw [walked] at below
    cases found : (trees d).at? start with
    | none =>
      rw [found] at below
      cases below
    | some q =>
      rw [found] at below
      cases below with
      | some dx => exact each x q walked found dx

theorem test_agrees (own : h.Owned shared roots trees) (target : List String) :
    Agrees h shared roots trees d (· = s)
      (orFail h do
        let y ← h.walk (roots d) target
        let y ← h.document y
        let x ← h.document (roots s)
        if y.alike x then some (h, roots d) else none)
      (do
        let y ← (trees d).at? target
        if y.alike (trees s) then some (trees d) else none) := by
  apply orFail_agrees own
  refine rel_bind (walk_rel (own.denotes d) target) fun y c _ _ dy => ?_
  rcases document_denotes dy with ⟨c', written, dc⟩
  rcases document_denotes (own.denotes s) with ⟨q', written', dq⟩
  have same : c'.alike q' = c.alike (trees s) := alike_congr (dc.same dy) (dq.same (own.denotes s))
  simp only [written, written', Option.bind_eq_bind, Option.bind_some, same]
  cases c.alike (trees s) with
  | true => exact .some ⟨roots, trees, own, .refl shared h, fun _ _ _ => ⟨rfl, rfl⟩, rfl, rfl⟩
  | false => exact .none

variable [DecidableEq ι]

theorem removed_denotes (e : Edit) {v : Val} {t : Json} (dv : h.Denotes v t) {path : List String} {name : String} {a : Nat}
    (alone : h.Alone v path a) (walked : h.walk v path = some (.ref a)) (c : Cell) :
    (h.write a c).Denotes (removed e (h.walk v (path ++ [name]))) (removedTree e (t.at? (path ++ [name]))) := by
  have below := walk_rel dv (path ++ [name])
  revert below
  rw [walk_edge walked]
  cases edge : h.child (.ref a) name <;> cases t.at? (path ++ [name]) <;> intro below
  · cases e <;> exact denotes_prim _ _
  · cases below
  · cases below
  · rename_i w q
    cases below with
    | some dw =>
      cases e with
      | insert => exact denotes_prim _ _
      | replace => exact denotes_prim _ _
      | remove =>
        refine dw.write (fun reached => ?_) _
        rcases (h.reaches_iff_walk w _).mp reached with ⟨rest, around⟩
        have whole : h.walk v (path ++ name :: rest) = some (.ref a) := by
          rw [walk_append, walked, Option.bind_some, walk, edge]
          exact around
        simpa using alone _ whole

theorem edit_owned (own : h.Owned shared roots trees) (ne : d ≠ s) (e : Edit) (name : String) (path : List String)
    (spares : ∀ a, h.target (roots d) path = some a → ¬ shared a) :
    Option.Rel (fun h' t => Keeps shared h h' ∧
        h'.Owned shared (Function.update roots s (removed e (h.walk (roots d) (path ++ [name]))))
          (Function.update (Function.update trees d t) s (removedTree e ((trees d).at? (path ++ [name])))))
      (edit e name (roots s) h (roots d) path) (Json.edit e name (trees s) (trees d) path) := by
  have sole : ∀ a, h.target (roots d) path = some a → h.Alone (roots d) path a ∧ ¬ h.Reaches (roots s) (.ref a) :=
    fun a at_path => ⟨own.apart.alone (spares a at_path) (walk_of_target at_path),
      own.apart.avoids (spares a at_path) (walk_of_target at_path) ne.symm⟩
  refine rel_mono (edit_denotes e name (own.denotes s) (own.denotes d) sole) fun h' t edited _ denotes => ?_
  rcases edit_eq_some edited with ⟨a, cell, n, at_path, found, applied, rfl⟩
  have own_a := spares a at_path
  have walked := walk_of_target at_path
  have at_a : h.Reaches (roots d) (.ref a) := (h.reaches_iff_walk _ _).mpr ⟨path, walked⟩
  refine ⟨.write own_a _, ?_, ?_, own.closed.write own_a _, fun b held => by simpa using own.live b held⟩
  · intro i
    by_cases scratch : i = s
    · rw [scratch, Function.update_self, Function.update_self]
      exact removed_denotes e (own.denotes d) (sole a at_path).1 walked n.toCell
    · rw [Function.update_of_ne scratch, Function.update_of_ne scratch]
      by_cases here : i = d
      · rw [here, Function.update_self]
        exact denotes
      · rw [Function.update_of_ne here]
        exact (own.denotes i).write (own.apart.avoids own_a walked here) _
  · rw [walk_edge walked]
    exact own.apart.edit own.closed own_a found applied at_a

/-- A change of a document, with the new value in a scratch root, which has what was taken out afterwards. -/
theorem change_owned (own : h.Owned shared roots trees) (ne : d ≠ s) (e : Edit) (tokens : List String)
    (spares : ∀ a, h.changed (roots d) tokens = some a → ¬ shared a) :
    Option.Rel (fun (r : Heap × Val) t => ∃ roots' trees', Succeeds h shared roots trees d (· = s) r.1 r.2 t roots' trees' ∧
        (tokens ≠ [] → r.2 = roots d ∧ roots' s = removed e (h.walk (roots d) tokens) ∧
          trees' s = removedTree e ((trees d).at? tokens)))
      (change e (roots s) h (roots d) tokens) (Json.change e (trees s) (trees d) tokens) := by
  unfold change Json.change
  unfold changed at spares
  rcases List.eq_nil_or_concat tokens with rfl | ⟨path, name, rfl⟩
  · refine .some ⟨_, _, ⟨own.takeOver ne, .refl shared h, fun i here scratch => ?_, ?_, ?_⟩, fun proper => absurd rfl proper⟩
    · rw [Function.update_of_ne scratch, Function.update_of_ne here, Function.update_of_ne scratch, Function.update_of_ne here]
      exact ⟨rfl, rfl⟩
    · rw [Function.update_of_ne ne, Function.update_self]
    · rw [Function.update_of_ne ne, Function.update_self]
  · have at_place : place (path.concat name) = some (path, name) := by simp [place]
    rw [at_place] at spares
    rw [at_place]
    refine rel_map_left (edit_owned own ne e name path spares) fun h' t edited => ⟨_, _, ⟨edited.2, edited.1, ?_, ?_, ?_⟩, ?_⟩
    · intro i here scratch
      rw [Function.update_of_ne scratch, Function.update_of_ne scratch, Function.update_of_ne here]
      exact ⟨rfl, rfl⟩
    · rw [Function.update_of_ne ne]
    · rw [Function.update_of_ne ne, Function.update_self]
    · intro _
      rw [Function.update_self, Function.update_self, List.concat_eq_append]
      exact ⟨rfl, rfl, rfl⟩

theorem change_agrees (own : h.Owned shared roots trees) (ne : d ≠ s) (e : Edit) (tokens : List String)
    (spares : ∀ a, h.changed (roots d) tokens = some a → ¬ shared a) :
    Agrees h shared roots trees d (· = s) (orFail h (change e (roots s) h (roots d) tokens))
      (Json.change e (trees s) (trees d) tokens) :=
  orFail_agrees own (rel_mono (change_owned own ne e tokens spares) fun _ _ _ _ changed => by
    rcases changed with ⟨roots', trees', succeeds, -⟩
    exact ⟨roots', trees', succeeds⟩)

theorem changeNull_agrees (own : h.Owned shared roots trees) (ne : d ≠ s) (e : Edit) (tokens : List String)
    (spares : ∀ a, h.changed (roots d) tokens = some a → ¬ shared a) :
    Agrees h shared roots trees d (· = s) (orFail h (change e (.prim .null) h (roots d) tokens))
      (Json.change e (.prim .null) (trees d) tokens) := by
  have null := own.putNull s
  have agrees := change_agrees null ne e tokens (by rwa [Function.update_of_ne ne])
  rw [Function.update_self, Function.update_self, Function.update_of_ne ne, Function.update_of_ne ne] at agrees
  refine agrees.rebase (.refl shared h) fun i _ free => ?_
  rw [Function.update_of_ne free, Function.update_of_ne free]
  exact ⟨rfl, rfl⟩

theorem part_agrees (own : h.Owned shared roots trees) {x : Val} {q : Json} {path : List String}
    (walked : h.walk (roots d) path = some x) (dx : h.Denotes x q) (scratch : ι → Prop) :
    Agrees h shared roots trees d scratch (h, some x) (some q) := by
  refine ⟨_, _, own.part walked dx, .refl shared h, fun i here _ => ?_, Function.update_self .., Function.update_self ..⟩
  rw [Function.update_of_ne here, Function.update_of_ne here]
  exact ⟨rfl, rfl⟩

theorem moveTo_agrees (own : h.Owned shared roots trees) (ne : d ≠ s) {x : Val} {q : Json} {source target : List String}
    (walked : h.walk (roots d) source = some x) (found : (trees d).at? source = some q) (dx : h.Denotes x q)
    (spares : target ≠ [] → ∀ a, h.changed (roots d) source = some a → ¬ shared a)
    (spares' : target ≠ [] → ∀ h' v', change .remove (.prim .null) h (roots d) source = some (h', v') →
      ∀ a, h'.changed v' target = some a → ¬ shared a) :
    Agrees h shared roots trees d (· = s) (moveTo h (roots d) x source target)
      (if target = [] then some q
        else if source = [] then none
        else do
          let j ← Json.change .remove (.prim .null) (trees d) source
          Json.change .insert q j target) := by
  unfold moveTo
  by_cases whole : target = []
  · rw [if_pos whole, if_pos whole]
    exact part_agrees own walked dx _
  rw [if_neg whole, if_neg whole]
  by_cases root : source = []
  · rw [if_pos root, if_pos root]
    exact .failed own
  rw [if_neg root, if_neg root]
  have removal := change_owned (own.putNull s) ne .remove source (by
    rw [Function.update_of_ne ne]
    exact spares whole)
  rw [Function.update_self, Function.update_self, Function.update_of_ne ne, Function.update_of_ne ne] at removal
  revert removal
  cases taken : change .remove (.prim .null) h (roots d) source <;>
    cases Json.change .remove (.prim .null) (trees d) source <;> intro removal
  · exact .failed own
  · cases removal
  · cases removal
  · rename_i r j
    cases removal with
    | some changed =>
      rcases r with ⟨h', v'⟩
      rcases changed with ⟨roots', trees', succeeds, scratch⟩
      rcases scratch root with ⟨-, old, oldTree⟩
      rw [walked] at old
      rw [found] at oldTree
      have old' : roots' s = x := old
      have oldTree' : trees' s = q := oldTree
      have insertion := change_agrees succeeds.owned ne .insert target (by
        rw [succeeds.root]
        exact spares' whole h' v' taken)
      rw [old', oldTree', succeeds.root, succeeds.tree] at insertion
      refine insertion.rebase succeeds.keeps fun i here free => ?_
      have same := succeeds.others i here free
      rw [Function.update_of_ne free, Function.update_of_ne free] at same
      exact same

theorem copy_agrees (own : h.Owned shared roots trees) (ne : d ≠ s) {x : Val} {q : Json} (dx : h.Denotes x q)
    (target : List String) (spares : ∀ a, h.changed (roots d) target = some a → ¬ shared a) :
    Agrees h shared roots trees d (· = s)
      (orFail h do
        let (h, x) ← h.deepClone x
        change .insert x h (roots d) target)
      (Json.change .insert q (trees d) target) := by
  rcases deepClone_spec dx with ⟨h', w, cloned, stored⟩
  have fresh := own.putFresh stored s
  have keeps := Keeps.of_old own stored.size stored.old
  have walks : ∀ path, h'.walk (roots d) path = h.walk (roots d) path :=
    walk_congr fun a reached => stored.old a ((own.denotes d).reached_bound reached)
  have targets : h'.changed (roots d) target = h.changed (roots d) target := by
    simp only [changed, Heap.target, walks]
  have insertion := change_owned fresh ne .insert target (by
    rw [Function.update_of_ne ne, targets]
    exact spares)
  rw [Function.update_self, Function.update_self, Function.update_of_ne ne, Function.update_of_ne ne] at insertion
  simp only [cloned, Option.bind_eq_bind, Option.bind_some]
  apply orFail_agrees own
  refine rel_mono insertion fun r t _ _ changed => ?_
  rcases changed with ⟨roots', trees', succeeds, -⟩
  refine ⟨roots', trees', succeeds.owned, keeps.trans succeeds.keeps, fun i here free => ?_, succeeds.root, succeeds.tree⟩
  have same := succeeds.others i here free
  rw [Function.update_of_ne free, Function.update_of_ne free] at same
  exact same

theorem move_agrees (own : h.Owned shared roots trees) (ne : d ≠ s) {source path : String}
    (spares : ∀ a ∈ h.written (roots d) (.move source path), ¬ shared a) :
    Agrees h shared roots trees d (· = s) (h.applyOperation (roots d) (.move source path))
      ((Operation.move source path).apply (trees d)) := by
  rw [applyOperation, Operation.apply]
  rw [written] at spares
  cases at_source : pointer source with
  | none => exact .failed own
  | some start =>
    cases at_path : pointer path with
    | none => exact .failed own
    | some target =>
      simp only [at_source, at_path] at spares
      refine source_agrees own fun x q walked found dx => ?_
      refine moveTo_agrees own ne walked found dx (fun whole a changed => ?_) fun whole h' v' taken a changed => ?_
      · rw [if_neg whole] at spares
        exact spares a (List.mem_append_left _ (by simp [changed]))
      · rw [if_neg whole, taken] at spares
        exact spares a (List.mem_append_right _ (by simp [changed]))

theorem applyOperation_agrees (own : h.Owned shared roots trees) (ne : d ≠ s) {op : Operation Val} {op' : Operation Json}
    (same : Operation.Rel (fun x q => x = roots s ∧ q = trees s) op op')
    (spares : ∀ a ∈ h.written (roots d) op, ¬ shared a) :
    Agrees h shared roots trees d (· = s) (h.applyOperation (roots d) op) (op'.apply (trees d)) := by
  have changes : ∀ {path target}, pointer path = some target →
      (∀ a ∈ ((pointer path).bind (h.changed (roots d))).toList, ¬ shared a) →
      ∀ a, h.changed (roots d) target = some a → ¬ shared a := by
    intro path target at_path spares a changed
    exact spares a (by simp [at_path, changed])
  cases same with
  | @add path x q related =>
    rcases related with ⟨rfl, rfl⟩
    exact pointer_agrees own fun target at_path => change_agrees own ne .insert target (changes at_path spares)
  | @remove path =>
    exact pointer_agrees own fun target at_path => changeNull_agrees own ne .remove target (changes at_path spares)
  | @replace path x q related =>
    rcases related with ⟨rfl, rfl⟩
    exact pointer_agrees own fun target at_path => change_agrees own ne .replace target (changes at_path spares)
  | @move source path => exact move_agrees own ne spares
  | @copy source path =>
    refine pointer_agrees own fun start _ => pointer_agrees own fun target at_path => ?_
    have copied : Agrees h shared roots trees d (· = s) (match h.walk (roots d) start with
          | some x => orFail h do let (h, x) ← h.deepClone x; change .insert x h (roots d) target
          | none => (h, none))
        (do let q ← (trees d).at? start; Json.change .insert q (trees d) target) :=
      source_agrees own fun x q _ _ dx => copy_agrees own ne dx target (changes at_path spares)
    cases walked : h.walk (roots d) start with
    | none =>
      rw [walked] at copied
      exact copied
    | some x =>
      rw [walked] at copied
      exact copied
  | @test path x q related =>
    rcases related with ⟨rfl, rfl⟩
    exact pointer_agrees own fun target _ => test_agrees own target
  | invalid => exact .failed own

end Spec

end Heap

end Js
