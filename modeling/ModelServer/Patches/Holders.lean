import ModelServer.Patches.ModelUpdate
import ModelServer.Library.Runs

namespace ModelServer.Patches
open Js Message Runs

section Deliveries

/-- What holders of models are sent: the patch of an incremental update, or the data of a reply. -/
inductive Delivery
  | notification (patch : Json)
  | result (data : Json) (valid : Reply data) (guarded : ∀ patch, data.child "patch" = some patch →
      Operations.isPatch patch = true → isJsonPatch patch = true)

def Delivery.patch : Delivery → Option String → Option Json
  | notification patch, _ => some patch
  | result data _ _, modeluri => selected data modeluri

/-- The `patchModel` function of an update, with the values it closes over. -/
inductive Closure
  | notification (patch : Val)
  | result (patch allPatches : Val)

namespace Closure

def call (lib : JsonPatchLibrary) (c : Closure) (h : Heap) (model : Val) (copy : Bool) (modeluri : Option String) : Heap.Applied :=
  match c with
  | notification patch => patchModel lib h patch model copy
  | result patch allPatches => patchModelOf lib patch allPatches h model copy modeluri

def patch (c : Closure) (h : Heap) (modeluri : Option String) : Option Val :=
  match c with
  | notification patch => some patch
  | result patch allPatches => patchToApply h patch allPatches modeluri

def values : Closure → List Val
  | notification patch => [patch]
  | result patch allPatches => [patch, allPatches]

end Closure

/-- Every call uses the values that were read once, when the message came. -/
def deliver (h : Heap) : Delivery → Heap × Closure
  | .notification patch =>
    let (h, v) := store h patch
    (h, .notification v)
  | .result data _ _ =>
    let (h, v) := store h data
    (h, .result (property h v "patch") (property h v "allPatches"))

theorem updateResult_deliver (h : Heap) (data : Json) (valid : Reply data) (guarded) :
    (updateResult rfc6902 (store h data).1 MessageType.success.value (store h data).2).patchModel =
      some ((deliver h (.result data valid guarded)).2.call rfc6902) :=
  patchModel_of_reply valid (store_spec data h).denotes

variable {h h' : Heap} {c : Closure} {d : Delivery} {model w : Val} {copy : Bool} {modeluri : Option String}

theorem applyPatch_falsy {v : Val} (falsy : ¬ truthy v = true) : h.applyPatch w v = (h, some w) := by
  cases v with
  | ref a => exact absurd rfl falsy
  | undefined => rfl
  | prim p => rfl

theorem call_of_cloned (cloned : (if copy then h.deepClone model else some (h, model)) = some (h', w)) :
    c.call rfc6902 h model copy modeluri = match c.patch h' modeluri with
      | none => (h', none)
      | some v => h'.applyPatch w v := by
  cases c with
  | notification patch => exact patchModel_of_cloned rfc6902 cloned
  | result patch allPatches =>
    simp only [Closure.call, Closure.patch, patchModelOf_of_cloned rfc6902 cloned]
    cases patchToApply h' patch allPatches modeluri with
    | none => rfl
    | some v =>
      by_cases present : truthy v = true
      · simp only [if_pos present]
        rfl
      · simp only [if_neg present, applyPatch_falsy present]

inductive Follows (h : Heap) : Closure → Delivery → Prop
  | notification {v : Val} {patch : Json} (denotes : h.Denotes v patch) : Follows h (.notification v) (.notification patch)
  | result {v v' : Val} {data : Json} {valid : Reply data} {guarded} (patch : Reads h v (data.child "patch"))
      (allPatches : Reads h v' (data.child "allPatches")) : Follows h (.result v v') (.result data valid guarded)

theorem Reads.bound {v : Val} {c? : Option Json} (reads : Reads h v c?) {a : Nat} (reached : h.Reaches v (.ref a)) : a < h.size := by
  cases c? with
  | some c => exact Heap.Denotes.reached_bound reads reached
  | none =>
    cases reads
    rcases (h.reaches_iff_walk _ _).mp reached with ⟨path, walked⟩
    cases path <;> cases walked

theorem Reads.congr {v : Val} {c? : Option Json} (reads : Reads h v c?)
    (same : ∀ a, h.Reaches v (.ref a) → h'.cell? a = h.cell? a) : Reads h' v c? := by
  cases c? with
  | some c => exact Heap.Denotes.congr reads same
  | none => exact reads

theorem Follows.reads (follows : Follows h c d) : ∀ v ∈ c.values, ∃ c?, Reads h v c? := by
  intro v member
  cases follows with
  | notification denotes =>
    cases List.mem_singleton.mp member
    exact ⟨some _, denotes⟩
  | result patch allPatches =>
    rcases List.mem_pair.mp member with rfl | rfl
    · exact ⟨_, patch⟩
    · exact ⟨_, allPatches⟩

theorem Follows.congr (follows : Follows h c d)
    (same : ∀ v ∈ c.values, ∀ a, h.Reaches v (.ref a) → h'.cell? a = h.cell? a) : Follows h' c d := by
  cases follows with
  | notification denotes => exact .notification (denotes.congr (same _ (List.mem_singleton_self _)))
  | result patch allPatches =>
    exact .result (patch.congr (same _ (List.mem_cons_self ..)))
      (allPatches.congr (same _ (List.mem_cons_of_mem _ (List.mem_singleton_self _))))

theorem deliver_follows (h : Heap) (d : Delivery) : Follows (deliver h d).1 (deliver h d).2 d := by
  cases d with
  | notification patch => exact .notification (store_spec patch h).denotes
  | result data valid guarded =>
    have denotes := (store_spec data h).denotes
    exact .result (property_reads denotes "patch") (property_reads denotes "allPatches")

theorem Follows.patch (follows : Follows h c d) {v : Val} (chosen : c.patch h modeluri = some v) :
    (v = .undefined ∧ d.patch modeluri = none) ∨
      ∃ q, d.patch modeluri = some q ∧ h.Denotes v q ∧ ∃ x ∈ c.values, h.Reaches x v := by
  cases follows with
  | notification denotes =>
    cases chosen
    exact .inr ⟨_, rfl, denotes, _, List.mem_singleton_self _, .root⟩
  | @result p p' data valid guarded patch allPatches =>
    have list : modeluri.isSome → ∃ entries, data.child "allPatches" = some (.arr entries) := by
      intro given
      cases modeluri with
      | none => cases given
      | some modeluri =>
        by_contra unlisted
        have thrown := @patchToApply_absent _ p _ _ valid allPatches (not_exists.mp unlisted) modeluri
        cases thrown.symm.trans chosen
    rcases patchToApply_spec valid patch allPatches ⟨list, fun _ => guarded⟩ (selects_selected valid modeluri) with
      ⟨v', chosen', stands⟩
    cases chosen.symm.trans chosen'
    rw [Delivery.patch]
    revert stands
    cases selected data modeluri <;> intro stands
    · cases stands
      exact .inl ⟨rfl, rfl⟩
    · cases stands with
      | main denotes present => exact .inr ⟨_, rfl, denotes, _, List.mem_cons_self .., .root⟩
      | entry walked denotes present =>
        exact .inr ⟨_, rfl, denotes, _, List.mem_cons_of_mem _ (List.mem_singleton_self _),
          (h.reaches_iff_walk _ _).mpr ⟨_, walked⟩⟩

end Deliveries

section Holders

variable {κ : Type}

/-- The functions that were handed out, and the models that holders keep. -/
structure State (κ : Type) where
  heap : Heap
  closures : List Closure
  models : κ → Val

inductive Action (κ : Type)
  | receive (update : Delivery)
  | apply (holder : κ) (update : Nat) (copy : Bool) (modeluri : Option String)

def State.patchCells (s : State κ) (a : Nat) : Prop := ∃ c ∈ s.closures, ∃ v ∈ c.values, s.heap.Reaches v (.ref a)

/-- No operation of the patch that is applied changes a cell of a patch. -/
def Unshared (s : State κ) : Action κ → Prop
  | .receive _ => True
  | .apply holder update copy modeluri => ∀ c h w patch, s.closures[update]? = some c →
      (if copy then s.heap.deepClone (s.models holder) else some (s.heap, s.models holder)) = some (h, w) →
      c.patch h modeluri = some patch → Heap.Spares s.patchCells h w (h.operations patch)

structure Documents (κ : Type) where
  deliveries : List Delivery
  models : κ → Json

def State.step [DecidableEq κ] (s : State κ) : Action κ → Option (State κ)
  | .receive update =>
    let (h, c) := deliver s.heap update
    some { s with heap := h, closures := s.closures ++ [c] }
  | .apply holder update copy modeluri =>
    match s.closures[update]? with
    | none => none
    | some c => match c.call rfc6902 s.heap (s.models holder) copy modeluri with
      | (h, some model) => some { s with heap := h, models := Function.update s.models holder model }
      | (_, none) => none

def holders [DecidableEq κ] (start : State κ) : System (State κ) (Action κ) := { init := start, step := State.step }

def Documents.step [DecidableEq κ] (r : Documents κ) : Action κ → Option (Documents κ)
  | .receive update => some { r with deliveries := r.deliveries ++ [update] }
  | .apply holder update _ modeluri => do
    let d ← r.deliveries[update]?
    let t ← updated (r.models holder) (d.patch modeluri)
    some { r with models := Function.update r.models holder t }

def documents [DecidableEq κ] (start : Documents κ) : System (Documents κ) (Action κ) := { init := start, step := Documents.step }

def slots {α : Type} (null : α) (models : κ → α) : Option κ → α
  | none => null
  | some x => models x

abbrev OwnedModels (h : Heap) (shared : Nat → Prop) (models : κ → Val) (trees : κ → Json) : Prop :=
  h.Owned shared (slots (.prim .null) models) (slots (.prim .null) trees)

/-- The models read as the documents do, each in cells of its own apart from those of patches. -/
structure Related (s : State κ) (r : Documents κ) : Prop where
  owned : OwnedModels s.heap s.patchCells s.models r.models
  follows : List.Forall₂ (Follows s.heap) s.closures r.deliveries

section Receive

variable {s : State κ} {r : Documents κ}

theorem follows_congr {h h' : Heap} {cs : List Closure} {ds : List Delivery} (follows : List.Forall₂ (Follows h) cs ds)
    (same : ∀ c ∈ cs, ∀ v ∈ c.values, ∀ a, h.Reaches v (.ref a) → h'.cell? a = h.cell? a) : List.Forall₂ (Follows h') cs ds := by
  induction follows with
  | nil => exact .nil
  | cons head tail ih =>
    exact .cons (head.congr (same _ (List.mem_cons_self ..))) (ih fun c member => same c (List.mem_cons_of_mem _ member))

theorem reads_of_follows {h : Heap} {cs : List Closure} {ds : List Delivery} (follows : List.Forall₂ (Follows h) cs ds) {c : Closure}
    (member : c ∈ cs) : ∀ v ∈ c.values, ∃ c?, Reads h v c? := by
  induction follows with
  | nil => cases member
  | cons head tail ih =>
    rcases List.mem_cons.mp member with rfl | later
    · exact head.reads
    · exact ih later

theorem deliver_old (h : Heap) (d : Delivery) :
    h.size ≤ (deliver h d).1.size ∧ ∀ a < h.size, (deliver h d).1.cell? a = h.cell? a := by
  cases d with
  | notification patch => exact ⟨(store_spec patch h).size, (store_spec patch h).old⟩
  | result data _ _ => exact ⟨(store_spec data h).size, (store_spec data h).old⟩

theorem receive_related (related : Related s r) (d : Delivery) :
    Related { s with heap := (deliver s.heap d).1, closures := s.closures ++ [(deliver s.heap d).2] }
      { r with deliveries := r.deliveries ++ [d] } := by
  have came := deliver_follows s.heap d
  rcases deliver_old s.heap d with ⟨size, old⟩
  revert came size old
  cases deliver s.heap d with
  | mk h c =>
    intro came size old
    have same : ∀ c ∈ s.closures, ∀ v ∈ c.values, ∀ a, s.heap.Reaches v (.ref a) → h.cell? a = s.heap.cell? a := by
      intro c member v value a reached
      rcases reads_of_follows related.follows member v value with ⟨c?, reads⟩
      exact old a (reads.bound reached)
    have cells : State.patchCells { s with heap := h, closures := s.closures ++ [c] } =
        fun a => s.patchCells a ∨ ∃ v ∈ c.values, h.Reaches v (.ref a) := by
      funext a
      simp only [State.patchCells, List.mem_append, List.mem_singleton, or_and_right, exists_or, exists_eq_left, eq_iff_iff]
      refine or_congr (exists_congr fun c => and_congr_right fun member => exists_congr fun v =>
        and_congr_right fun value => ?_) Iff.rfl
      exact Heap.reaches_congr (same c member v value) _
    refine ⟨?_, List.rel_append (follows_congr related.follows same) (.cons came .nil)⟩
    rw [cells]
    refine (related.owned.later size old).share ?_ ?_
    · intro a name b held edge
      exact held.imp fun v => And.imp_right fun reached => reached.child edge
    · intro a held
      rcases held with ⟨v, value, reached⟩
      rcases came.reads v value with ⟨c?, reads⟩
      exact reads.bound reached

theorem patchCells_keep {h : Heap} (keeps : Heap.Keeps s.patchCells s.heap h) (models : κ → Val) :
    State.patchCells { s with heap := h, models } = s.patchCells := by
  funext a
  refine propext (exists_congr fun c => and_congr_right fun member => exists_congr fun v => and_congr_right fun value => ?_)
  exact Heap.reaches_congr (fun b reached => keeps.cells b ⟨c, member, v, value, reached⟩) _

end Receive

section Apply

variable [DecidableEq κ] {h h' : Heap} {shared : Nat → Prop} {models : κ → Val} {trees : κ → Json} {x : κ} {w v : Val} {q : Json} {copy : Bool}

theorem update_slots {α : Type} (null : α) (models : κ → α) (x : κ) (w : α) :
    Function.update (slots null models) (some x) w = slots null (Function.update models x w) := by
  funext i
  cases i with
  | none => rfl
  | some y =>
    by_cases same : y = x
    · rw [same, Function.update_self, slots, Function.update_self]
    · rw [Function.update_of_ne (fun here => same (Option.some.inj here)), slots, slots, Function.update_of_ne same]

theorem update_scratch {α : Type} {null w : α} {roots : Option κ → α} {models : κ → α} {x : κ} (root : roots (some x) = w)
    (others : ∀ y, y ≠ x → roots (some y) = models y) :
    Function.update roots none null = slots null (Function.update models x w) := by
  funext i
  cases i with
  | none => exact Function.update_self ..
  | some y =>
    rw [Function.update_of_ne (Option.some_ne_none y), slots]
    by_cases same : y = x
    · rw [same, Function.update_self, root]
    · rw [Function.update_of_ne same, others y same]

theorem clone_owned (own : OwnedModels h shared models trees)
    (cloned : (if copy then h.deepClone (models x) else some (h, models x)) = some (h', w)) :
    OwnedModels h' shared (Function.update models x w) trees ∧ Heap.Keeps shared h h' := by
  cases copy with
  | false =>
    cases cloned
    rw [Function.update_eq_self]
    exact ⟨own, .refl shared h⟩
  | true =>
    rcases Heap.deepClone_spec (own.denotes (some x)) with ⟨h₁, w₁, cloned₁, stored⟩
    cases cloned.symm.trans cloned₁
    have fresh := own.putFresh stored (some x)
    rw [Function.update_eq_self, update_slots] at fresh
    exact ⟨fresh, .of_old own stored.size stored.old⟩

theorem load_owned (own : OwnedModels h shared models trees) (x : κ) (t : Json) :
    OwnedModels (store h t).1 shared (Function.update models x (store h t).2) (Function.update trees x t) := by
  have fresh := own.putFresh (store_spec t h) (some x)
  rwa [update_slots, update_slots] at fresh

omit [DecidableEq κ] in
theorem none_owned (h : Heap) : OwnedModels h (fun _ => False) (fun _ : κ => .prim .null) fun _ => .prim .null := by
  have none : ∀ {α : Type} (null : α), (fun _ : Option κ => null) = slots null fun _ => null := by
    intro α null
    funext i
    cases i <;> rfl
  have own := @Heap.owned_null (Option κ) h
  rwa [none, none] at own

theorem apply_owned (own : OwnedModels h shared models trees) (held : Heap.Held h shared v q)
    (spares : Heap.Spares shared h (models x) (h.operations v)) {model : Val}
    (applied : h.applyPatch (models x) v = (h', some model)) :
    ∃ t, (trees x).patched q.operations = some t ∧
      OwnedModels h' shared (Function.update models x model) (Function.update trees x t) ∧ Heap.Keeps shared h h' := by
  have agrees := Heap.applyOperations_held (Option.some_ne_none x) own (Heap.operations_held held) spares
  have root : slots (.prim .null) models (some x) = models x := rfl
  have tree : slots (.prim .null) trees (some x) = trees x := rfl
  rw [Heap.applyPatch] at applied
  rw [root, tree, applied] at agrees
  cases result : (trees x).patched q.operations with
  | none =>
    rw [result] at agrees
    cases agrees
  | some t =>
    rw [result] at agrees
    rcases agrees with ⟨roots', trees', succeeds⟩
    refine ⟨t, rfl, ?_, succeeds.keeps⟩
    have others : ∀ y, y ≠ x → roots' (some y) = models y ∧ trees' (some y) = trees y :=
      fun y other => succeeds.others (some y) (fun same => other (Option.some.inj same)) (Option.some_ne_none y)
    have emptied := succeeds.owned.putNull none
    rw [update_scratch succeeds.root fun y other => (others y other).1,
      update_scratch succeeds.tree fun y other => (others y other).2] at emptied
    exact emptied

end Apply

section Step

variable [DecidableEq κ] {s s' : State κ} {r : Documents κ} {a : Action κ}

theorem cloned_of_denotes {h : Heap} {v : Val} {t : Json} (denotes : h.Denotes v t) (copy : Bool) :
    ∃ h' w, (if copy then h.deepClone v else some (h, v)) = some (h', w) := by
  cases copy with
  | false => exact ⟨h, v, rfl⟩
  | true =>
    rcases Heap.deepClone_spec denotes with ⟨h', w, cloned, -⟩
    exact ⟨h', w, cloned⟩

theorem delivery_of_closure {h : Heap} {cs : List Closure} {ds : List Delivery} (follows : List.Forall₂ (Follows h) cs ds) {k : Nat}
    {c : Closure} (at_k : cs[k]? = some c) : ∃ d, ds[k]? = some d ∧ Follows h c d := by
  induction follows generalizing k with
  | nil => cases at_k
  | cons head tail ih =>
    cases k with
    | zero =>
      cases at_k
      exact ⟨_, rfl, head⟩
    | succ k => exact ih at_k

theorem call_eq_some {h h' : Heap} {c : Closure} {v model : Val} {t : Json} {copy : Bool} {modeluri : Option String}
    (denotes : h.Denotes v t) (called : c.call rfc6902 h v copy modeluri = (h', some model)) :
    ∃ h₁ w patch, (if copy then h.deepClone v else some (h, v)) = some (h₁, w) ∧ c.patch h₁ modeluri = some patch ∧
      h₁.applyPatch w patch = (h', some model) := by
  rcases cloned_of_denotes denotes copy with ⟨h₁, w, cloned⟩
  rw [call_of_cloned cloned] at called
  cases chosen : c.patch h₁ modeluri with
  | none =>
    rw [chosen] at called
    cases called
  | some patch =>
    rw [chosen] at called
    exact ⟨h₁, w, patch, cloned, chosen, called⟩

theorem step_apply {x : κ} {k : Nat} {copy : Bool} {modeluri : Option String}
    (stepped : s.step (.apply x k copy modeluri) = some s') :
    ∃ c h model, s.closures[k]? = some c ∧ c.call rfc6902 s.heap (s.models x) copy modeluri = (h, some model) ∧
      s' = { s with heap := h, models := Function.update s.models x model } := by
  simp only [State.step] at stepped
  cases at_k : s.closures[k]? with
  | none =>
    rw [at_k] at stepped
    cases stepped
  | some c =>
    cases called : c.call rfc6902 s.heap (s.models x) copy modeluri with
    | mk h model? =>
      simp only [at_k, called] at stepped
      cases model? with
      | none => cases stepped
      | some model =>
        cases stepped
        exact ⟨c, h, model, rfl, called, rfl⟩

theorem apply_related (related : Related s r) {x : κ} {k : Nat} {copy : Bool} {modeluri : Option String}
    (ok : Unshared s (.apply x k copy modeluri)) (stepped : s.step (.apply x k copy modeluri) = some s') :
    ∃ r', r.step (.apply x k copy modeluri) = some r' ∧ Related s' r' := by
  rcases step_apply stepped with ⟨c, h', model, at_k, called, rfl⟩
  rcases call_eq_some (related.owned.denotes (some x)) called with ⟨h, w, patch, cloned, chosen, applied⟩
  rcases clone_owned related.owned cloned with ⟨own, keeps⟩
  have follows : List.Forall₂ (Follows h) s.closures r.deliveries := follows_congr related.follows
    fun c member v value a reached => keeps.cells a ⟨c, member, v, value, reached⟩
  rcases delivery_of_closure follows at_k with ⟨d, came, follow⟩
  rcases follow.patch chosen with ⟨rfl, nothing⟩ | ⟨q, selects, denotes, u, value, reached⟩
  · cases applied
    refine ⟨r, by simp [Documents.step, came, nothing, updated], ?_, follows⟩
    rw [patchCells_keep keeps]
    exact own
  · have cells : ∀ b, h.Reaches patch (.ref b) → s.patchCells b := by
      intro b below
      rw [← patchCells_keep keeps s.models]
      exact ⟨c, List.mem_of_getElem? at_k, u, value, reached.trans below⟩
    have at_x : Function.update s.models x w x = w := Function.update_self ..
    have spares := ok c h w patch at_k cloned chosen
    rw [← at_x] at spares applied
    rcases apply_owned own ⟨denotes, cells⟩ spares applied with ⟨t, result, own', keeps'⟩
    rw [Function.update_idem] at own'
    refine ⟨{ r with models := Function.update r.models x t }, by simp [Documents.step, came, selects, updated, result], ?_, ?_⟩
    · rw [patchCells_keep (keeps.trans keeps')]
      exact own'
    · refine follows_congr follows fun c member v value a reached => keeps'.cells a ?_
      rw [← patchCells_keep keeps s.models]
      exact ⟨c, member, v, value, reached⟩

/-- Holders follow the documents as long as no patch is changed. -/
theorem step_related {a : Action κ} (related : Related s r) (ok : Unshared s a) (stepped : s.step a = some s') :
    ∃ r', r.step a = some r' ∧ Related s' r' := by
  cases a with
  | receive update =>
    cases stepped
    exact ⟨_, rfl, receive_related related update⟩
  | apply x k copy modeluri => exact apply_related related ok stepped

end Step

section Reference

def appliedBy [DecidableEq κ] (x : κ) (came : List Delivery) : List (Action κ) → List Json
  | [] => []
  | .receive update :: rest => appliedBy x (came ++ [update]) rest
  | .apply holder update _ modeluri :: rest =>
    (if holder = x then (came[update]?.bind (·.patch modeluri)).toList else []) ++ appliedBy x came rest

def replayed (t : Json) : List Json → Option Json
  | [] => some t
  | patch :: rest => do
    let t ← t.patched patch.operations
    replayed t rest

/-- The same patches applied to one model that nobody else holds, each read once and used nowhere else. -/
def privately (h : Heap) (model : Val) : List Json → Heap.Applied
  | [] => (h, some model)
  | patch :: rest =>
    let (h, v) := store h patch
    match patchModel rfc6902 h v model false with
    | (h, some model) => privately h model rest
    | (h, none) => (h, none)

theorem update_private {α : Type} (null model w : α) :
    Function.update (Function.update (slots null fun _ : Unit => model) none null) (some ()) w = slots null fun _ => w := by
  funext i
  cases i <;> rfl

theorem privately_denotes {patches : List Json} : ∀ {h : Heap} {model : Val} {t : Json},
    OwnedModels h (fun _ => False) (fun _ : Unit => model) (fun _ => t) →
    Option.Rel (privately h model patches).1.Denotes (privately h model patches).2 (replayed t patches) := by
  induction patches with
  | nil => exact fun own => .some (own.denotes (some ()))
  | cons patch rest ih =>
    intro h model t own
    have stored := store_spec patch h
    have apart := own.putFresh stored none
    have root : Function.update (slots (.prim .null) fun _ : Unit => model) none (store h patch).2 none = (store h patch).2 :=
      Function.update_self ..
    have walked : (store h patch).1.walk (Function.update (slots (.prim .null) fun _ : Unit => model) none (store h patch).2 none)
        [] = some (store h patch).2 := congrArg some root
    have applied := (Heap.applyPatch_of_part apart (Option.some_ne_none ()) walked stored.denotes).1
    have at_model : Function.update (slots (.prim .null) fun _ : Unit => model) none (store h patch).2 (some ()) = model := rfl
    have at_tree : Function.update (slots (.prim .null) fun _ : Unit => t) none patch (some ()) = t := rfl
    simp only [Function.update_idem, at_model, at_tree] at applied
    have call : patchModel rfc6902 (store h patch).1 (store h patch).2 model false = (store h patch).1.applyPatch model (store h patch).2 :=
      rfl
    rw [privately, replayed]
    simp only [call]
    revert applied
    cases (store h patch).1.applyPatch model (store h patch).2 with
    | mk h' model? =>
      cases t.patched patch.operations <;> cases model? <;> intro applied
      · exact .none
      · cases applied
      · cases applied
      · cases applied with
        | some own' =>
          rw [update_private, update_private] at own'
          exact ih own'

variable [DecidableEq κ] {start r r' : Documents κ} {as : List (Action κ)}

theorem replayed_of_run (run : Run (documents start) (fun _ _ => True) r as r') (x : κ) :
    replayed (r.models x) (appliedBy x r.deliveries as) = some (r'.models x) := by
  induction run with
  | nil r => rfl
  | @cons r r₁ r₂ a as _ stepped rest ih =>
    cases a with
    | receive update =>
      cases stepped
      exact ih
    | apply y k copy modeluri =>
      have stepped : r.step (.apply y k copy modeluri) = some r₁ := stepped
      simp only [Documents.step, Option.bind_eq_bind, Option.bind_eq_some_iff, Option.some.injEq] at stepped
      rcases stepped with ⟨d, came, t, result, rfl⟩
      rw [appliedBy, came, Option.bind_some]
      by_cases here : y = x
      · subst here
        rw [if_pos rfl]
        simp only [Function.update_self] at ih
        cases selects : d.patch modeluri with
        | none =>
          rw [selects] at result
          cases result
          exact ih
        | some q =>
          rw [selects] at result
          have patched : (r.models y).patched q.operations = some t := result
          simp only [Option.toList_some, List.cons_append, List.nil_append, replayed, patched, Option.bind_eq_bind,
            Option.bind_some]
          exact ih
      · rw [if_neg here]
        simp only [Function.update_of_ne (Ne.symm here)] at ih
        exact ih

end Reference

section Agreement

structure State.Fresh (s : State κ) (t : Json) : Prop where
  owned : OwnedModels s.heap (fun _ => False) s.models fun _ => t
  closures : s.closures = []

theorem related_of_fresh {start : State κ} {t : Json} (fresh : start.Fresh t) : Related start ⟨[], fun _ => t⟩ := by
  have cells : start.patchCells = fun _ => False := by
    funext a
    simp [State.patchCells, fresh.closures]
  refine ⟨?_, ?_⟩
  · rw [cells]
    exact fresh.owned
  · rw [fresh.closures]
    exact .nil

/-- The models of two holders that apply the same patches stay equal to each other and to a model that
    nobody else holds, as long as no operation changes a cell of a patch. -/
theorem models_stay_equal [DecidableEq κ] {start s : State κ} {t : Json} {as : List (Action κ)} (fresh : start.Fresh t)
    (run : Reached (holders start) Unshared as s) (x y : κ) (same : appliedBy x [] as = appliedBy y [] as) :
    ∃ h model t', privately (store ⟨[]⟩ t).1 (store ⟨[]⟩ t).2 (appliedBy x [] as) = (h, some model) ∧ h.Denotes model t' ∧
      s.heap.Denotes (s.models x) t' ∧ s.heap.Denotes (s.models y) t' := by
  rcases run.simulates (T := documents ⟨[], fun _ => t⟩) (fun _ _ _ _ => step_related) _ (related_of_fresh fresh) with
    ⟨r, followed, related⟩
  have first := replayed_of_run followed x
  have second := replayed_of_run followed y
  rw [← same, first] at second
  have own : OwnedModels (store ⟨[]⟩ t).1 (fun _ => False) (fun _ : Unit => (store ⟨[]⟩ t).2) fun _ => t :=
    load_owned (none_owned ⟨[]⟩) () t
  have alone := @privately_denotes (appliedBy x [] as) _ _ _ own
  rw [first] at alone
  revert alone
  cases privately (store ⟨[]⟩ t).1 (store ⟨[]⟩ t).2 (appliedBy x [] as) with
  | mk h model? =>
    cases model? <;> intro alone
    · cases alone
    · cases alone with
      | some denotes =>
        have at_y : r.models y = r.models x := (Option.some.inj second).symm
        have there := related.owned.denotes (some y)
        rw [slots, slots, at_y] at there
        exact ⟨h, _, r.models x, rfl, denotes, related.owned.denotes (some x), there⟩

theorem unshared_apply {s : State κ} {x : κ} {copy : Bool} {h : Heap} {v w : Val} {patch : Json} {op : Operation Val} {a : Nat}
    (closures : s.closures = [.notification v])
    (cloned : (if copy then s.heap.deepClone (s.models x) else some (s.heap, s.models x)) = some (h, w))
    (operations : h.operations v = [op]) (written : h.written w op = [a]) (denotes : s.heap.Denotes v patch)
    (elsewhere : ∀ path ∈ patch.paths, s.heap.walk v path ≠ some (.ref a)) : Unshared s (.apply x 0 copy none) := by
  intro c h' w' v' at_k cloned' chosen
  rw [closures] at at_k
  cases at_k
  cases cloned.symm.trans cloned'
  cases chosen
  rw [operations]
  refine ⟨fun b member => ?_, fun _ _ _ => trivial⟩
  rw [written] at member
  cases List.mem_singleton.mp member
  intro held
  rcases held with ⟨c, listed, u, value, reached⟩
  rw [closures] at listed
  cases List.mem_singleton.mp listed
  cases List.mem_singleton.mp value
  exact Json.not_reaches_of_paths denotes elsewhere reached

def addTo (path : String) (value : Json) : Json :=
  .obj [("op", .prim (.string "add")), ("path", .prim (.string path)), ("value", value)]

def twoHolders (t : Json) : State Bool :=
  let (h, first) := store ⟨[]⟩ t
  let (h, second) := store h t
  { heap := h, closures := [], models := fun x => if x then second else first }

theorem twoHolders_fresh (t : Json) : (twoHolders t).Fresh t := by
  have own := load_owned (load_owned (none_owned ⟨[]⟩) false t) true t
  have values : ∀ {α : Type} (x y z : α), Function.update (Function.update (fun _ => z) false x) true y =
      fun b => if b then y else x := by
    intro α x y z
    funext b
    cases b <;> rfl
  rw [values, values] at own
  simp only [ite_self] at own
  exact ⟨own, rfl⟩

def addObject : Json := .arr [addTo "/a" (.obj [])]

def sharing : List (Action Bool) := [.receive (.notification addObject), .apply true 0 false none, .apply false 0 true none]

theorem models_stay_equal_sharing : ∃ s, Reached (holders (twoHolders (.obj []))) Unshared sharing s ∧
    ∃ h model t', privately (store ⟨[]⟩ (.obj [])).1 (store ⟨[]⟩ (.obj [])).2 (appliedBy true [] sharing) = (h, some model) ∧
      h.Denotes model t' ∧ s.heap.Denotes (s.models true) t' ∧ s.heap.Denotes (s.models false) t' := by
  have denotes := (store_spec addObject (twoHolders (.obj [])).heap).denotes
  have second : ∀ cell, ((store (twoHolders (.obj [])).heap addObject).1.write 1 cell).Denotes
      (store (twoHolders (.obj [])).heap addObject).2 addObject :=
    denotes.write (Json.not_reaches_of_paths denotes (by decide))
  have run : Reached (holders (twoHolders (.obj []))) Unshared sharing _ :=
    .cons trivial rfl (.cons (unshared_apply rfl rfl rfl rfl denotes (by decide)) rfl
      (.cons (unshared_apply rfl rfl rfl rfl (second _) (by decide)) rfl (.nil _)))
  exact ⟨_, run, models_stay_equal (twoHolders_fresh (.obj [])) run true false rfl⟩

def growing : List (Action Bool) :=
  [.receive (.notification (.arr [addTo "/a" (.arr []), addTo "/a/-" (.prim (.number 1))])),
    .apply true 0 false none, .apply false 0 false none]

/-- The element is added to the array of the patch, which both models hold. -/
theorem models_drift_apart : (twoHolders (.obj [])).Fresh (.obj []) ∧ appliedBy true [] growing = appliedBy false [] growing ∧
    ∃ s, Reached (holders (twoHolders (.obj []))) (fun _ _ => True) growing s ∧
      ¬ ∃ h model t', privately (store ⟨[]⟩ (.obj [])).1 (store ⟨[]⟩ (.obj [])).2 (appliedBy true [] growing) = (h, some model) ∧
        h.Denotes model t' ∧ s.heap.Denotes (s.models true) t' ∧ s.heap.Denotes (s.models false) t' := by
  refine ⟨twoHolders_fresh _, rfl, _, .cons trivial rfl (.cons trivial rfl (.cons trivial rfl (.nil _))), ?_⟩
  intro agree
  rcases agree with ⟨h, model, t', alone, denotes, first, -⟩
  cases alone
  exact absurd ((denotes ["a"]).trans (first ["a"]).symm) (by decide)

end Agreement

end Holders

end ModelServer.Patches
