import ModelServer.Patches.PatchModel

namespace ModelServer.Patches
open Js Message Relations

section Selection

/-- The patches of a reply by model: each entry names its model, and no model is named twice. -/
structure ModelPatches (entries : List Json) : Prop where
  named : ∀ mp ∈ entries, ∃ modelUri, mp.child "modelUri" = some (.prim (.string modelUri))
  patches : ∀ mp ∈ entries, ∃ patch, mp.child "patch" = some patch ∧ isJsonPatch patch = true
  once : entries.Pairwise fun mp mp' => mp.child "modelUri" ≠ mp'.child "modelUri"

/-- The data of a reply with a patch, a list of patches by model, or both. -/
structure Reply (data : Json) : Prop where
  carries : (∃ patch, data.child "patch" = some patch ∧ isJsonPatch patch = true) ∨
    ∃ entries, data.child "allPatches" = some (.arr entries)
  absent : (∀ entries, data.child "allPatches" ≠ some (.arr entries)) →
    data.child "allPatches" = none ∨ data.child "allPatches" = some (.prim .null)
  modelPatches : ∀ entries, data.child "allPatches" = some (.arr entries) → ModelPatches entries

inductive Selects (data : Json) : Option String → Option Json → Prop
  | entry {modeluri : String} {entries : List Json} {mp patch : Json} (listed : data.child "allPatches" = some (.arr entries))
      (member : mp ∈ entries) (named : mp.child "modelUri" = some (.prim (.string modeluri)))
      (found : mp.child "patch" = some patch) : Selects data (some modeluri) (some patch)
  | noEntry {modeluri : String} (others : ∀ entries, data.child "allPatches" = some (.arr entries) →
      ∀ mp ∈ entries, mp.child "modelUri" ≠ some (.prim (.string modeluri))) : Selects data (some modeluri) none
  | main {patch : Json} (found : data.child "patch" = some patch) (operations : isJsonPatch patch = true) :
      Selects data none (some patch)
  | noPatch (others : ∀ patch, data.child "patch" = some patch → isJsonPatch patch = false) : Selects data none none

def selected (data : Json) : Option String → Option Json
  | some modeluri =>
    let allPatches := ((data.child "allPatches").map elements).getD []
    (allPatches.find? fun mp => (mp.child "modelUri").bind Json.string? = some modeluri).bind (·.child "patch")
  | none => (data.child "patch").filter isJsonPatch

def updated (t : Json) : Option Json → Option Json
  | some patch => t.patched patch.operations
  | none => some t

structure Returns (r : Heap.Applied) (model : Val) (t : Json) (copy : Bool) (patch : Option Json) : Prop where
  value : Option.Rel r.1.Denotes r.2 (updated t patch)
  itself : patch = none → copy = false → r.2 = some model
  unchanged : copy = true → r.1.Denotes model t

def Meets (h : Heap) (data model : Val) (reply t : Json) (modeluri : Option String) : Prop :=
  ∀ patch, Selects reply modeluri patch → ∃ f, (updateResult rfc6902 h MessageType.success.value data).patchModel = some f ∧
    ∀ copy, Returns (f h model copy modeluri) model t copy patch

/-- A model is looked up in a list only, and a patch that passes the guard is one. -/
structure Guarded (reply : Json) (modeluri : Option String) : Prop where
  list : modeluri.isSome → ∃ entries, reply.child "allPatches" = some (.arr entries)
  patch : modeluri = none → ∀ patch, reply.child "patch" = some patch → Operations.isPatch patch = true →
    isJsonPatch patch = true

end Selection

section Lookup

variable {h : Heap} {v : Val} {j : Json} {modeluri : String}

theorem property_of_child {name : String} {c : Json} (d : h.Denotes v j) (found : j.child name = some c) :
    h.child v name = some (property h v name) ∧ h.Denotes (property h v name) c := by
  rcases d.of_child found with ⟨w, edge, denotes⟩
  have holds : property h v name = w := by simp [property, edge]
  rw [holds]
  exact ⟨edge, denotes⟩

theorem property_of_none {name : String} (d : h.Denotes v j) (missing : j.child name = none) :
    property h v name = .undefined := by
  have edge := d.children name
  rw [missing] at edge
  cases below : h.child v name with
  | none => simp [property, below]
  | some w =>
    rw [below] at edge
    cases edge

theorem truthy_of_arr {elems : List Json} (d : h.Denotes v (.arr elems)) : truthy v = true := by
  rcases d.of_arr with ⟨a, vs, rfl, -⟩
  rfl

theorem arr_of_isJsonPatch (patch : isJsonPatch j = true) : ∃ elems, j = .arr elems := by
  cases j with
  | prim p => cases patch
  | obj props => cases patch
  | arr elems => exact ⟨elems, rfl⟩

theorem truthy_of_isJsonPatch (d : h.Denotes v j) (patch : isJsonPatch j = true) : truthy v = true := by
  rcases arr_of_isJsonPatch patch with ⟨elems, rfl⟩
  exact truthy_of_arr d

theorem string_child_iff {name s : String} :
    (j.child name).bind Json.string? = some s ↔ j.child name = some (.prim (.string s)) := by
  cases j.child name with
  | none => simp
  | some c =>
    cases c with
    | prim p => cases p <;> simp [Json.string?]
    | arr elems => simp [Json.string?]
    | obj props => simp [Json.string?]

theorem selects_selected {data : Json} (valid : Reply data) (modeluri : Option String) :
    Selects data modeluri (selected data modeluri) := by
  cases modeluri with
  | none =>
    rw [selected]
    cases found : data.child "patch" with
    | none => exact .noPatch fun patch here => by cases found.symm.trans here
    | some patch =>
      cases operations : isJsonPatch patch with
      | true => simpa [Option.filter, operations] using Selects.main found operations
      | false =>
        simp only [Option.filter, operations]
        exact .noPatch fun patch' here => by cases found.symm.trans here; exact operations
  | some modeluri =>
    by_cases listed : ∃ entries, data.child "allPatches" = some (.arr entries)
    · rcases listed with ⟨entries, listed⟩
      simp only [selected, listed, Option.map_some, elements, Option.getD_some]
      cases looked : entries.find? fun mp => (mp.child "modelUri").bind Json.string? = some modeluri with
      | none =>
        refine .noEntry fun entries' listed' mp member named => ?_
        cases listed.symm.trans listed'
        have refused := List.find?_eq_none.mp looked mp member
        rw [decide_eq_true_eq, string_child_iff] at refused
        exact refused named
      | some mp =>
        have member := List.mem_of_find?_eq_some looked
        have named := List.find?_some looked
        rw [decide_eq_true_eq, string_child_iff] at named
        rcases (valid.modelPatches entries listed).patches mp member with ⟨patch, found, -⟩
        rw [Option.bind_some, found]
        exact .entry listed member named found
    · have nothing : selected data (some modeluri) = none := by
        have empty : ((data.child "allPatches").map elements).getD [] = [] := by
          cases found : data.child "allPatches" with
          | none => rfl
          | some all =>
            cases all with
            | prim p => rfl
            | obj props => rfl
            | arr entries => exact absurd ⟨entries, found⟩ listed
        simp only [selected, empty, List.find?_nil, Option.bind_none]
      rw [nothing]
      exact .noEntry fun entries here => absurd ⟨entries, here⟩ listed

theorem findPatch_cons {vs : List Val} (d : h.Denotes v j) (named : ∃ uri, j.child "modelUri" = some (.prim (.string uri))) :
    findPatch h modeluri (v :: vs) =
      if (j.child "modelUri").bind Json.string? = some modeluri then some (property h v "patch") else findPatch h modeluri vs := by
  rcases named with ⟨uri, named⟩
  rw [findPatch, Heap.strings_of_denotes d]
  · intro same
    subst same
    cases j <;> cases d.shape
  · intro same
    subst same
    have same := Json.Same.shape (d.same (Heap.denotes_prim h .null))
    cases j <;> simp [Json.shape, Json.child] at same named

theorem findPatch_entry {vs : List Val} {entries : List Json} {mp : Json} (denotes : List.Forall₂ h.Denotes vs entries)
    (modelPatches : ModelPatches entries) (member : mp ∈ entries)
    (named : mp.child "modelUri" = some (.prim (.string modeluri))) :
    ∃ (k : Nat) (w : Val), vs[k]? = some w ∧ h.Denotes w mp ∧ findPatch h modeluri vs = some (property h w "patch") := by
  induction denotes with
  | nil => cases member
  | @cons v e vs rest head tail ih =>
    have later : ModelPatches rest := ⟨fun mp inside => modelPatches.named mp (List.mem_cons_of_mem _ inside),
      fun mp inside => modelPatches.patches mp (List.mem_cons_of_mem _ inside), modelPatches.once.of_cons⟩
    rw [findPatch_cons head (modelPatches.named e (List.mem_cons_self ..))]
    rcases List.mem_cons.mp member with rfl | inside
    · rw [if_pos (string_child_iff.mpr named)]
      exact ⟨0, v, rfl, head, rfl⟩
    · have other : e.child "modelUri" ≠ some (.prim (.string modeluri)) := by
        rw [← named]
        exact List.rel_of_pairwise_cons modelPatches.once inside
      rw [if_neg fun here => other (string_child_iff.mp here)]
      rcases ih later inside with ⟨k, w, here, dw, found⟩
      exact ⟨k + 1, w, here, dw, found⟩

theorem findPatch_noEntry {vs : List Val} {entries : List Json} (denotes : List.Forall₂ h.Denotes vs entries)
    (named : ∀ mp ∈ entries, ∃ uri, mp.child "modelUri" = some (.prim (.string uri)))
    (others : ∀ mp ∈ entries, mp.child "modelUri" ≠ some (.prim (.string modeluri))) :
    findPatch h modeluri vs = some .undefined := by
  induction denotes with
  | nil => rfl
  | @cons v e vs rest head tail ih =>
    rw [findPatch_cons head (named e (List.mem_cons_self ..)),
      if_neg fun here => others e (List.mem_cons_self ..) (string_child_iff.mp here)]
    exact ih (fun mp inside => named mp (List.mem_cons_of_mem _ inside))
      fun mp inside => others mp (List.mem_cons_of_mem _ inside)

theorem elements_denote {elems : List Json} (d : h.Denotes v (.arr elems)) :
    ∃ a vs, v = .ref a ∧ h.cell? a = some (.array vs) ∧ List.Forall₂ h.Denotes vs elems := by
  rcases d.of_arr with ⟨a, vs, rfl, found, length⟩
  refine ⟨a, vs, rfl, found, List.forall₂_iff_get.mpr ⟨length, fun k bound bound' => ?_⟩⟩
  have edge : h.child (.ref a) (indexName k) = some vs[k] := by simp [found, Cell.child, bound]
  have below : (Json.arr elems).child (indexName k) = some elems[k] := by simp [Json.child, bound']
  rcases d.child edge with ⟨c, below', denotes⟩
  cases below.symm.trans below'
  exact denotes

def Reads (h : Heap) (v : Val) : Option Json → Prop
  | some c => h.Denotes v c
  | none => v = .undefined

theorem property_reads (d : h.Denotes v j) (name : String) : Reads h (property h v name) (j.child name) := by
  cases found : j.child name with
  | none => exact property_of_none d found
  | some c => exact (property_of_child d found).2

end Lookup

section Apply

variable {h : Heap} {patch allPatches : Val} {reply : Json} {modeluri : Option String}

inductive StandsFor (h : Heap) (patch allPatches : Val) : Val → Option Json → Prop
  | nothing : StandsFor h patch allPatches .undefined none
  | main {q : Json} (denotes : h.Denotes patch q) (present : truthy patch = true) : StandsFor h patch allPatches patch (some q)
  | entry {v : Val} {q : Json} {path : List String} (walked : h.walk allPatches path = some v) (denotes : h.Denotes v q)
      (present : truthy v = true) : StandsFor h patch allPatches v (some q)

theorem patchToApply_listed {entries : List Json} {modeluri : String} {q : Option Json} (all : h.Denotes allPatches (.arr entries))
    (listed : reply.child "allPatches" = some (.arr entries)) (modelPatches : ModelPatches entries)
    (selects : Selects reply (some modeluri) q) :
    ∃ v, patchToApply h patch allPatches (some modeluri) = some v ∧ StandsFor h patch allPatches v q := by
  rcases elements_denote all with ⟨a, vs, rfl, cell, denotes⟩
  have looked : patchToApply h patch (.ref a) (some modeluri) = findPatch h modeluri vs := by
    simp only [patchToApply, getPatch, cell]
  rw [looked]
  cases selects with
  | @entry _ entries' mp patch listed' member named found =>
    cases listed.symm.trans listed'
    rcases findPatch_entry denotes modelPatches member named with ⟨k, v, here, dv, result⟩
    rcases property_of_child dv found with ⟨edge, held⟩
    rcases modelPatches.patches mp member with ⟨patch', found', operations⟩
    cases found.symm.trans found'
    have below : h.child (.ref a) (indexName k) = some v := by simp [cell, Cell.child, here]
    have walked : h.walk (.ref a) [indexName k, "patch"] = some (property h v "patch") := by
      simp only [Heap.walk, Option.bind_some, below, edge]
    exact ⟨_, result, .entry walked held (truthy_of_isJsonPatch held operations)⟩
  | noEntry others =>
    exact ⟨_, findPatch_noEntry denotes modelPatches.named (others entries listed), .nothing⟩

theorem patchToApply_main {q : Option Json} (main : Reads h patch (reply.child "patch"))
    (guarded : ∀ patch, reply.child "patch" = some patch → Operations.isPatch patch = true → isJsonPatch patch = true)
    (selects : Selects reply none q) :
    ∃ v, patchToApply h patch allPatches none = some v ∧ StandsFor h patch allPatches v q := by
  unfold patchToApply
  cases selects with
  | @main q found operations =>
    rw [found] at main
    have passes : isPatch h patch = true := by
      rw [isPatch_denotes main]
      exact Operations.isPatch_of_operations operations
    rw [if_pos passes]
    exact ⟨_, rfl, .main main (truthy_of_isJsonPatch main operations)⟩
  | noPatch others =>
    have refused : ¬ isPatch h patch = true := by
      cases found : reply.child "patch" with
      | none =>
        rw [found] at main
        rw [main]
        exact Bool.false_ne_true
      | some q =>
        rw [found] at main
        rw [isPatch_denotes main]
        intro passes
        cases (others q found).symm.trans (guarded q found passes)
    rw [if_neg refused]
    exact ⟨_, rfl, .nothing⟩

theorem patchToApply_spec {q : Option Json} (valid : Reply reply) (main : Reads h patch (reply.child "patch"))
    (all : Reads h allPatches (reply.child "allPatches")) (guarded : Guarded reply modeluri) (selects : Selects reply modeluri q) :
    ∃ v, patchToApply h patch allPatches modeluri = some v ∧ StandsFor h patch allPatches v q := by
  cases modeluri with
  | none => exact patchToApply_main main (guarded.patch rfl) selects
  | some modeluri =>
    rcases guarded.list rfl with ⟨entries, listed⟩
    rw [listed] at all
    exact patchToApply_listed all listed (valid.modelPatches entries listed) selects

theorem patchToApply_absent (valid : Reply reply) (all : Reads h allPatches (reply.child "allPatches"))
    (unlisted : ∀ entries, reply.child "allPatches" ≠ some (.arr entries)) (modeluri : String) :
    patchToApply h patch allPatches (some modeluri) = none := by
  rcases valid.absent unlisted with missing | null
  · rw [missing] at all
    rw [all]
    rfl
  · rw [null] at all
    rw [Heap.Denotes.eq_prim all]
    rfl

end Apply

section Call

variable {h : Heap} {data model w : Val} {reply t : Json} {copy : Bool} {modeluri : Option String}

inductive Role
  | reply
  | model
  | modelToPatch
  deriving DecidableEq

def roles {α : Type} (reply model modelToPatch : α) : Role → α
  | .reply => reply
  | .model => model
  | .modelToPatch => modelToPatch

def Separate (h : Heap) (data model : Val) (reply t : Json) : Prop :=
  h.Owned (fun _ => False) (roles data model (.prim .null)) (roles reply t (.prim .null))

/-- The model to patch is the old model, whose place is empty then, or a copy of it. -/
structure Prepared (h : Heap) (data model w : Val) (reply t : Json) (copy : Bool) : Prop where
  owned : h.Owned (fun _ => False) (roles data (if copy then model else .prim .null) w)
    (roles reply (if copy then t else .prim .null) t)

theorem prepared (separate : Separate h data model reply t) (copy : Bool) :
    ∃ h' w, (if copy then h.deepClone model else some (h, model)) = some (h', w) ∧
      Prepared h' data model w reply t copy ∧ (copy = false → w = model) ∧ ∀ name, property h' data name = property h data name := by
  have moved : ∀ {α : Type} (x y z w : α), Function.update (roles x y z) .modelToPatch w = roles x y w := by
    intro α x y z w
    funext role
    cases role <;> rfl
  have emptied : ∀ {α : Type} (x y z w : α), Function.update (roles x y z) .model w = roles x w z := by
    intro α x y z w
    funext role
    cases role <;> rfl
  cases copy with
  | false =>
    have own := Heap.Owned.takeOver (d := .modelToPatch) (s := .model) separate (by decide)
    rw [moved, moved, emptied, emptied] at own
    exact ⟨h, model, rfl, ⟨own⟩, fun _ => rfl, fun _ => rfl⟩
  | true =>
    rcases Heap.deepClone_spec (separate.denotes .model) with ⟨h', w, cloned, stored⟩
    have own := Heap.Owned.putFresh separate stored .modelToPatch
    rw [moved, moved] at own
    refine ⟨h', w, cloned, ⟨own⟩, nofun, fun name => ?_⟩
    have d : h.Denotes data reply := separate.denotes .reply
    have same : h'.child data name = h.child data name := by
      cases data with
      | undefined => rfl
      | prim p => rfl
      | ref a => rw [Heap.child_ref, Heap.child_ref, stored.old a (d.reached_bound .root)]
    rw [property, property, same]

namespace Prepared

theorem data_denotes (ready : Prepared h data model w reply t copy) : h.Denotes data reply := ready.owned.denotes .reply

theorem unpatched (ready : Prepared h data model w reply t copy) (itself : copy = false → w = model) :
    Returns (h, some w) model t copy none := by
  refine ⟨.some (ready.owned.denotes .modelToPatch), fun _ inPlace => by rw [itself inPlace], fun copied => ?_⟩
  have denotes := ready.owned.denotes .model
  simpa [roles, copied] using denotes

theorem patched (ready : Prepared h data model w reply t copy) {p : Val} {patch : Json} {path : List String}
    (walked : h.walk data path = some p) (dp : h.Denotes p patch) :
    Returns (rfc6902.applyPatch h w p) model t copy (some patch) := by
  have at_data : h.walk (roles data (if copy then model else .prim .null) w .reply) path = some p := walked
  have applied := Heap.applyPatch_of_part (d := .modelToPatch) ready.owned (by decide) at_data dp
  refine ⟨rel_mono applied.1 fun v t' _ _ own => ?_, fun absent => absurd absent (Option.some_ne_none patch), fun copied => ?_⟩
  · have denotes := own.denotes .modelToPatch
    rwa [Function.update_self, Function.update_self] at denotes
  · have denotes : (rfc6902.applyPatch h w p).1.Denotes _ _ := applied.2 .model (by decide) (by decide)
    simpa [roles, copied] using denotes

end Prepared

end Call

section Selected

variable {h : Heap} {data model : Val} {reply t : Json}

theorem patchModel_of_reply (valid : Reply reply) (d : h.Denotes data reply) :
    (updateResult rfc6902 h MessageType.success.value data).patchModel =
      some (patchModelOf rfc6902 (property h data "patch") (property h data "allPatches")) := by
  have present : (truthy (property h data "patch") || truthy (property h data "allPatches")) = true := by
    rw [Bool.or_eq_true]
    rcases valid.carries with ⟨patch, found, operations⟩ | ⟨entries, found⟩
    · exact .inl (truthy_of_isJsonPatch (property_of_child d found).2 operations)
    · exact .inr (truthy_of_arr (property_of_child d found).2)
  rw [updateResult, if_pos rfl]
  simp only [present, if_true]

theorem patched_of_invalid {ops : List (Operation Json)} (invalid : .invalid ∈ ops) : t.patched ops = none := by
  induction ops generalizing t with
  | nil => cases invalid
  | cons op ops ih =>
    rw [Json.patched]
    cases applied : op.apply t with
    | none => rfl
    | some t' =>
      rcases List.mem_cons.mp invalid with rfl | later
      · cases applied
      · exact ih later

theorem patched_of_not_isJsonPatch {patch : Json} (guarded : Operations.isPatch patch = true)
    (other : isJsonPatch patch = false) : t.patched patch.operations = none := by
  cases patch with
  | prim p => cases guarded
  | obj props => cases guarded
  | arr elems =>
    have some_other : ∃ e ∈ elems, Operations.isOperation e = false := by simpa [isJsonPatch, isArrayOf] using other
    rcases some_other with ⟨e, member, refused⟩
    apply patched_of_invalid
    rw [← ofChild_of_not_isOperation refused]
    exact List.mem_map_of_mem member

theorem returns_selected (valid : Reply reply) (separate : Separate h data model reply t) {modeluri : Option String}
    {patch : Option Json} (guarded : Guarded reply modeluri) (selects : Selects reply modeluri patch) (copy : Bool) :
    Returns (patchModelOf rfc6902 (property h data "patch") (property h data "allPatches") h model copy modeluri) model t copy patch := by
  rcases prepared separate copy with ⟨h', w, cloned, ready, itself, same⟩
  rw [patchModelOf_of_cloned rfc6902 cloned, ← same, ← same]
  rcases patchToApply_spec valid (property_reads ready.data_denotes "patch") (property_reads ready.data_denotes "allPatches")
    guarded selects with ⟨v, chosen, stands⟩
  simp only [chosen]
  cases stands with
  | nothing => exact ready.unpatched itself
  | main denotes present =>
    rw [if_pos present]
    have walked : h'.walk data ["patch"] = some (property h' data "patch") := by
      cases edge : h'.child data "patch" with
      | none => simp [property, edge, truthy] at present
      | some w => simp [Heap.walk, property, edge]
    exact ready.patched walked denotes
  | @entry v q path walked denotes present =>
    rw [if_pos present]
    have whole : h'.walk data ("allPatches" :: path) = some v := by
      cases edge : h'.child data "allPatches" with
      | none =>
        simp only [property, edge, Option.getD_none] at walked
        cases path with
        | nil =>
          cases walked
          cases present
        | cons key path => cases walked
      | some w =>
        simp only [property, edge, Option.getD_some] at walked
        simp only [Heap.walk, edge, Option.bind_some, walked]
    exact ready.patched whole denotes

theorem not_returns_absent (valid : Reply reply) (separate : Separate h data model reply t) {modeluri : String} (copy : Bool)
    (unlisted : ∀ entries, reply.child "allPatches" ≠ some (.arr entries)) :
    ¬ Returns (patchModelOf rfc6902 (property h data "patch") (property h data "allPatches") h model copy (some modeluri)) model t copy
      none := by
  rcases prepared separate copy with ⟨h', w, cloned, ready, -, same⟩
  rw [patchModelOf_of_cloned rfc6902 cloned, ← same, ← same,
    patchToApply_absent valid (property_reads ready.data_denotes "allPatches") unlisted]
  intro returns
  cases returns.value

theorem not_returns_refused (separate : Separate h data model reply t) {patch : Json} {allPatches : Val} (copy : Bool)
    (found : reply.child "patch" = some patch) (passes : Operations.isPatch patch = true) (refused : isJsonPatch patch = false) :
    ¬ Returns (patchModelOf rfc6902 (property h data "patch") allPatches h model copy none) model t copy none := by
  rcases prepared separate copy with ⟨h', w, cloned, ready, -, same⟩
  rw [patchModelOf_of_cloned rfc6902 cloned, ← same]
  rcases property_of_child ready.data_denotes found with ⟨edge, held⟩
  have guarded : isPatch h' (property h' data "patch") = true := by rw [isPatch_denotes held, passes]
  have present : truthy (property h' data "patch") = true := by
    cases patch with
    | prim p => cases passes
    | obj props => cases passes
    | arr elems => exact truthy_of_arr held
  have walked : h'.walk data ["patch"] = some (property h' data "patch") := by
    simp only [Heap.walk, edge, Option.bind_some]
  simp only [patchToApply, guarded, if_true, present]
  intro returns
  have applied := isSome_of_rel (ready.patched walked held).value
  rw [isSome_of_rel returns.value, updated, patched_of_not_isJsonPatch passes refused] at applied
  cases applied

def loaded (reply t : Json) : Heap × Val × Val :=
  let (h, data) := store ⟨[]⟩ reply
  let (h, model) := store h t
  (h, data, model)

theorem separate_loaded (reply t : Json) :
    Separate (loaded reply t).1 (loaded reply t).2.1 (loaded reply t).2.2 reply t := by
  have placed : ∀ {α : Type} (x y z : α), Function.update (Function.update (fun _ => z) Role.reply x) .model y = roles x y z := by
    intro α x y z
    funext role
    cases role <;> rfl
  have own := ((Heap.owned_null ⟨[]⟩).putFresh (store_spec reply _) Role.reply).putFresh (store_spec t _) .model
  rw [placed, placed] at own
  exact own

/-- The function of a successful reply does what is said of it exactly when a model is looked up in a
    list only and what passes for the patch of the reply is one. -/
theorem patchModel_meets_iff (valid : Reply reply) (separate : Separate h data model reply t) (modeluri : Option String) :
    Meets h data model reply t modeluri ↔ Guarded reply modeluri := by
  have result := patchModel_of_reply valid (separate.denotes .reply)
  constructor
  · intro meets
    constructor
    · intro given
      cases modeluri with
      | none => cases given
      | some modeluri =>
        by_contra unlisted
        have nowhere := not_exists.mp unlisted
        rcases meets none (.noEntry fun entries listed => absurd listed (nowhere entries)) with ⟨f, holds, returns⟩
        cases result.symm.trans holds
        exact not_returns_absent valid separate false nowhere (returns false)
    · intro omitted patch found passes
      subst omitted
      by_contra refused
      rw [Bool.not_eq_true] at refused
      have nothing : ∀ patch', reply.child "patch" = some patch' → isJsonPatch patch' = false := by
        intro patch' found'
        cases found.symm.trans found'
        exact refused
      rcases meets none (.noPatch nothing) with ⟨f, holds, returns⟩
      cases result.symm.trans holds
      exact not_returns_refused separate false found passes refused (returns false)
  · intro guarded patch selects
    exact ⟨_, result, fun copy => returns_selected valid separate guarded selects copy⟩

def namePatch : Json :=
  .arr [.obj [("op", .prim (.string "add")), ("path", .prim (.string "/name")), ("value", .prim (.string "b"))]]

def patchByModel : Json :=
  .obj [("patch", namePatch), ("allPatches", .arr [.obj [("modelUri", .prim (.string "a.xmi")), ("patch", namePatch)]])]

theorem patchModel_meets_listed : Meets (loaded patchByModel (.obj [])).1 (loaded patchByModel (.obj [])).2.1
    (loaded patchByModel (.obj [])).2.2 patchByModel (.obj []) (some "a.xmi") := by
  refine (patchModel_meets_iff ⟨.inr ⟨_, rfl⟩, fun unlisted => absurd rfl (unlisted _), fun entries listed => ?_⟩
    (separate_loaded patchByModel (.obj [])) (some "a.xmi")).mpr ⟨fun _ => ⟨_, rfl⟩, nofun⟩
  cases listed
  refine ⟨fun mp member => ?_, fun mp member => ?_, List.pairwise_singleton ..⟩
  · cases List.mem_singleton.mp member
    exact ⟨_, rfl⟩
  · cases List.mem_singleton.mp member
    exact ⟨namePatch, rfl, rfl⟩

def patchOnly : Json := .obj [("patch", namePatch)]

/-- The reply has no list of patches, and the function is asked for the patch of a model. -/
theorem patchModel_throws_without_list : Reply patchOnly ∧
    Separate (loaded patchOnly (.obj [])).1 (loaded patchOnly (.obj [])).2.1 (loaded patchOnly (.obj [])).2.2
      patchOnly (.obj []) ∧
    ¬ Meets (loaded patchOnly (.obj [])).1 (loaded patchOnly (.obj [])).2.1 (loaded patchOnly (.obj [])).2.2
      patchOnly (.obj []) (some "a.xmi") := by
  refine ⟨⟨.inl ⟨namePatch, rfl, rfl⟩, fun _ => .inl rfl, nofun⟩, separate_loaded .., fun meets => ?_⟩
  rcases meets none (.noEntry nofun) with ⟨f, result, returns⟩
  cases result
  cases (returns false).value

end Selected

end ModelServer.Patches
