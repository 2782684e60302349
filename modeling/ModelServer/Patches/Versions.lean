import ModelServer.Js.Region
import ModelServer.Patches.Builders
import ModelServer.Patches.Holders

namespace ModelServer.Patches
open Js Message

/-- What is documented of fast-json-patch: clones are made of new cells, and a patch changes cells of the document and
    of its own values. -/
structure JsonPatchLibrary.Confined (jsonPatch : JsonPatchLibrary) : Prop where
  deepClone : ∀ {h h' : Heap} {cells : Nat → Prop} {v w : Val}, h.Region cells → jsonPatch.deepClone h v = some (h', w) →
    Heap.Inside cells h h' ∧ h'.Within cells w
  applyPatch : ∀ {h : Heap} {cells : Nat → Prop} {v patch : Val}, h.Region cells → h.Within cells v → h.Within cells patch →
    h.Stays cells (jsonPatch.applyPatch h v patch)

theorem confined_rfc6902 : rfc6902.Confined :=
  ⟨Heap.deepClone_inside, fun region within held => Heap.applyPatch_stays region within held⟩

/-- A holder of a model, with the models that it has replaced by patched copies, the newest first. -/
structure History where
  heap : Heap
  current : Val
  earlier : List Val

structure Update where
  delivery : Delivery
  copy : Bool
  modeluri : Option String

namespace History

def start (document : Json) : History :=
  let (heap, current) := store ⟨[]⟩ document
  { heap, current, earlier := [] }

/-- The function of an update is called once, with the current model, which stays the same when it throws. -/
def update (jsonPatch : JsonPatchLibrary) (s : History) (u : Update) : History :=
  let (heap, closure) := deliver s.heap u.delivery
  match closure.call jsonPatch heap s.current u.copy u.modeluri with
  | (heap, some model) => { heap, current := model, earlier := if u.copy then s.current :: s.earlier else s.earlier }
  | (heap, none) => { s with heap }

def run (jsonPatch : JsonPatchLibrary) (document : Json) (updates : List Update) : History :=
  updates.foldl (update jsonPatch) (start document)

def versions (s : History) : List Val := s.current :: s.earlier

end History

section Regions

variable {jsonPatch : JsonPatchLibrary} {h h' : Heap} {cells : Nat → Prop} {c : Closure} {model v : Val} {copy : Bool} {modeluri : Option String}

theorem property_within (region : h.Region cells) (within : h.Within cells v) (name : String) :
    h.Within cells (property h v name) := by
  rw [property]
  cases edge : h.child v name with
  | none => exact fun _ same => by cases same
  | some w => exact region.child within edge

theorem within_undefined (h : Heap) (cells : Nat → Prop) : h.Within cells .undefined := fun _ same => by cases same

theorem findPatch_within (region : h.Region cells) {uri : String} {entries : List Val}
    (within : ∀ mp ∈ entries, h.Within cells mp) (found : findPatch h uri entries = some v) : h.Within cells v := by
  fun_induction findPatch h uri entries with
  | case1 =>
    cases found
    exact within_undefined h cells
  | case2 => cases found
  | case3 => cases found
  | case4 mp rest _ _ named =>
    cases found
    exact property_within region (within mp List.mem_cons_self) "patch"
  | case5 mp rest _ _ other ih => exact ih (fun mp' member => within mp' (.tail _ member)) found

theorem patchToApply_within (region : h.Region cells) {patch allPatches : Val} (main : h.Within cells patch)
    (all : h.Within cells allPatches) (chosen : patchToApply h patch allPatches modeluri = some v) : h.Within cells v := by
  cases modeluri with
  | none =>
    rw [patchToApply] at chosen
    split at chosen
    · cases chosen
      exact main
    · cases chosen
      exact within_undefined h cells
  | some uri =>
    change getPatch h allPatches uri = some v at chosen
    unfold getPatch at chosen
    split at chosen
    · rename_i a
      split at chosen
      · rename_i elems found
        refine findPatch_within region ?_ chosen
        intro mp member
        rcases List.getElem?_of_mem member with ⟨i, at_i⟩
        have edge : h.child (.ref a) (indexName i) = some mp := by simp [found, Cell.child, at_i]
        exact region.child all edge
      · cases chosen
    · cases chosen

theorem call_of_not_cloned (failed : (if copy then jsonPatch.deepClone h model else some (h, model)) = none) :
    c.call jsonPatch h model copy modeluri = (h, none) := by
  cases c with
  | notification patch => simp only [Closure.call, patchModel, failed]
  | result patch allPatches => simp only [Closure.call, patchModelOf, failed]

theorem call_of_cloned_stays (confined : jsonPatch.Confined)
    (prepared : (if copy then jsonPatch.deepClone h model else some (h, model)) = some (h', v)) (region : h'.Region cells)
    (within : h'.Within cells v) (values : ∀ w ∈ c.values, h'.Within cells w) :
    h'.Stays cells (c.call jsonPatch h model copy modeluri) := by
  cases c with
  | notification patch =>
    rw [Closure.call, patchModel_of_cloned jsonPatch prepared]
    exact confined.applyPatch region within (values patch (List.mem_singleton_self patch))
  | result patch allPatches =>
    have main := values patch (List.mem_cons_self ..)
    have all := values allPatches (List.mem_cons_of_mem _ (List.mem_singleton_self _))
    rw [Closure.call, patchModelOf_of_cloned jsonPatch prepared]
    cases chosen : patchToApply h' patch allPatches modeluri with
    | none => exact .failed region
    | some p =>
      dsimp only
      split
      · exact confined.applyPatch region within (patchToApply_within region main all chosen)
      · exact .done (.refl region) within

/-- A call leaves everything outside a region as it is, when the values of the function are inside, and the model as
    well unless it is copied. -/
theorem call_stays (confined : jsonPatch.Confined) (region : h.Region cells) (values : ∀ w ∈ c.values, h.Within cells w)
    (held : copy = false → h.Within cells model) : h.Stays cells (c.call jsonPatch h model copy modeluri) := by
  cases prepared : (if copy then jsonPatch.deepClone h model else some (h, model)) with
  | none =>
    rw [call_of_not_cloned prepared]
    exact .failed region
  | some result =>
    rcases result with ⟨h₁, w⟩
    have ready : Heap.Inside cells h h₁ ∧ h₁.Within cells w := by
      cases copy with
      | true => exact confined.deepClone region prepared
      | false =>
        cases prepared
        exact ⟨.refl region, held rfl⟩
    rcases ready with ⟨inside, within⟩
    have later : ∀ w ∈ c.values, h₁.Within cells w := fun w member => (values w member).later inside.keeps.size
    exact .after inside (call_of_cloned_stays confined prepared inside.region within later)

theorem deliver_inside (region : h.Region cells) (d : Delivery) :
    Heap.Inside cells h (deliver h d).1 ∧ ∀ w ∈ (deliver h d).2.values, (deliver h d).1.Within cells w := by
  cases d with
  | notification patch =>
    rcases Heap.store_inside patch h region with ⟨inside, within⟩
    refine ⟨inside, fun w member => ?_⟩
    cases List.mem_singleton.mp member
    exact within
  | result data valid guarded =>
    rcases Heap.store_inside data h region with ⟨inside, within⟩
    refine ⟨inside, fun w member => ?_⟩
    rcases List.mem_pair.mp member with rfl | rfl
    · exact property_within inside.region within "patch"
    · exact property_within inside.region within "allPatches"

end Regions

section Layers

/-- The models lie in layers of cells, each above those of the older ones. -/
inductive Layers (h : Heap) : Nat → List Val → Prop
  | nil (top : Nat) : Layers h top []
  | cons {top base : Nat} {model : Val} {older : List Val} (base_le : base ≤ top)
      (between : ∀ a, h.Reaches model (.ref a) → base ≤ a ∧ a < top) (rest : Layers h base older) :
      Layers h top (model :: older)

variable {h h' : Heap} {top : Nat} {models : List Val}

theorem Layers.lt_top (layers : Layers h top models) : ∀ model ∈ models, ∀ a, h.Reaches model (.ref a) → a < top := by
  induction layers with
  | nil top => exact fun _ member => by cases member
  | cons base_le between rest ih =>
    intro model member a reached
    rcases List.mem_cons.mp member with rfl | older
    · exact (between a reached).2
    · exact (ih model older a reached).trans_le base_le

theorem Layers.apart (layers : Layers h top models) :
    models.Pairwise fun model older => ∀ a, h.Reaches model (.ref a) → ¬ h.Reaches older (.ref a) := by
  induction layers with
  | nil top => exact .nil
  | cons base_le between rest ih =>
    refine .cons (fun older member a reached reached' => ?_) ih
    exact absurd (rest.lt_top older member a reached') (Nat.not_lt_of_le (between a reached).1)

theorem Layers.apart_of_ne (layers : Layers h top models) {i j : Nat} {model other : Val} (at_i : models[i]? = some model)
    (at_j : models[j]? = some other) (different : i ≠ j) (a : Nat) (reached : h.Reaches model (.ref a)) :
    ¬ h.Reaches other (.ref a) := by
  have ordered := List.pairwise_iff_getElem.mp layers.apart
  rcases List.getElem?_eq_some_iff.mp at_i with ⟨bound, rfl⟩
  rcases List.getElem?_eq_some_iff.mp at_j with ⟨bound', rfl⟩
  rcases Nat.lt_or_gt_of_ne different with newer | older
  · exact ordered i j bound bound' newer a reached
  · exact fun reached' => ordered j i bound' bound older a reached' reached

theorem Layers.congr (layers : Layers h top models) (same : ∀ a < top, h'.cell? a = h.cell? a) : Layers h' top models := by
  induction layers with
  | nil top => exact .nil top
  | cons base_le between rest ih =>
    refine .cons base_le (fun a reached => ?_) (ih fun a below => same a (below.trans_le base_le))
    exact between a ((Heap.reaches_congr (fun b reached => same b (between b reached).2) _).mp reached)

end Layers

namespace History

/-- The current model and all cells that come after it are above the earlier models. -/
structure Layered (s : History) (base : Nat) : Prop where
  base_le : base ≤ s.heap.size
  region : s.heap.Region (base ≤ ·)
  current : s.heap.Within (base ≤ ·) s.current
  earlier : Layers s.heap base s.earlier

variable {jsonPatch : JsonPatchLibrary} {s : History} {base : Nat}

theorem start_layered (document : Json) : (start document).Layered 0 := by
  rcases Heap.store_inside document ⟨[]⟩ (Heap.Region.new ⟨[]⟩) with ⟨inside, within⟩
  exact ⟨Nat.zero_le _, inside.region, within, .nil 0⟩

theorem kept_below {h h' : Heap} (inside : Heap.Inside (base ≤ ·) h h') : ∀ a < base, h'.cell? a = h.cell? a :=
  fun a below => inside.keeps.cells a (Nat.not_le_of_lt below)

theorem update_stays (confined : jsonPatch.Confined) (u : Update) (region : s.heap.Region (base ≤ ·))
    (held : u.copy = false → s.heap.Within (base ≤ ·) s.current) :
    s.heap.Stays (base ≤ ·)
      ((deliver s.heap u.delivery).2.call jsonPatch (deliver s.heap u.delivery).1 s.current u.copy u.modeluri) := by
  rcases deliver_inside region u.delivery with ⟨inside, values⟩
  exact .after inside (call_stays confined inside.region values fun itself => (held itself).later inside.keeps.size)

theorem Layered.between (layered : s.Layered base) {a : Nat} (reached : s.heap.Reaches s.current (.ref a)) :
    base ≤ a ∧ a < s.heap.size := layered.region.reaches layered.current reached a rfl

theorem Layered.versions (layered : s.Layered base) : Layers s.heap s.heap.size s.versions :=
  .cons layered.base_le (fun _ reached => layered.between reached) layered.earlier

theorem update_layered (confined : jsonPatch.Confined) (layered : s.Layered base) (u : Update) :
    ∃ base', base ≤ base' ∧ (s.update jsonPatch u).Layered base' ∧
      ∀ a < base, (s.update jsonPatch u).heap.cell? a = s.heap.cell? a := by
  have stays := update_stays confined u layered.region fun _ => layered.current
  have size := layered.base_le.trans stays.1.keeps.size
  have below := kept_below stays.1
  unfold update
  split
  · rename_i heap closure delivered
    split
    · rename_i h' model called
      rw [delivered, called] at stays size below
      cases copied : u.copy with
      | false => exact ⟨base, le_rfl, ⟨size, stays.1.region, stays.2 model rfl, layered.earlier.congr below⟩, below⟩
      | true =>
        have fresh := update_stays confined u (.new s.heap) fun itself => by rw [copied] at itself; cases itself
        rw [delivered, called] at fresh
        have kept := kept_below fresh.1
        refine ⟨s.heap.size, layered.base_le, ⟨fresh.1.keeps.size, fresh.1.region, fresh.2 model rfl, ?_⟩, below⟩
        exact layered.versions.congr kept
    · rename_i h' called
      rw [delivered, called] at stays size below
      exact ⟨base, le_rfl, ⟨size, stays.1.region, layered.current.later stays.1.keeps.size, layered.earlier.congr below⟩, below⟩

theorem updates_layered (confined : jsonPatch.Confined) (updates : List Update) (layered : s.Layered base) :
    ∃ base', base ≤ base' ∧ (updates.foldl (update jsonPatch) s).Layered base' ∧
      ∀ a < base, (updates.foldl (update jsonPatch) s).heap.cell? a = s.heap.cell? a := by
  induction updates generalizing s base with
  | nil => exact ⟨base, le_rfl, layered, fun _ _ => rfl⟩
  | cons u updates ih =>
    rcases update_layered confined layered u with ⟨base₁, le₁, layered₁, kept₁⟩
    rcases ih layered₁ with ⟨base₂, le₂, layered₂, kept₂⟩
    exact ⟨base₂, le₁.trans le₂, layered₂, fun a below => (kept₂ a (below.trans_le le₁)).trans (kept₁ a below)⟩

end History

section Elements

variable {U : Type} {lib : FragmentLibrary U} {h : Heap} {modeluri : U}

/-- An object is only asked for what it holds: of the elements of another model none is found. -/
theorem removeValue_elsewhere {model other object : Val} {feature : String} {a : Nat}
    (apart : ∀ a, h.Reaches model (.ref a) → ¬ h.Reaches other (.ref a)) (object_of : h.Reaches model object)
    (element : h.Reaches other (.ref a)) : removeValue lib h modeluri object feature (.ref a) = none := by
  rw [removeValue, Option.map_eq_none_iff, Option.eq_none_iff_forall_ne_some]
  intro index found
  rcases findIndex_eq_some found with ⟨b, elems, edge, cell, at_index, -⟩
  have below : h.child (.ref b) (indexName index) = some (.ref a) := by simp [cell, Cell.child, at_index]
  exact apart a (.child (.child object_of edge) below) element

theorem removeValue_member {object value : Val} {feature : String} {a : Nat} {elems : List Val}
    (edge : h.child object feature = some (.ref a)) (cell : h.cell? a = some (.array elems)) (member : value ∈ elems) :
    ∃ index, removeValue lib h modeluri object feature value = some (removeValueAt lib h modeluri object feature index) ∧
      elems[index]? = some value ∧ ∀ i < index, elems[i]? ≠ some value := by
  rcases findIndex_of_mem edge cell member with ⟨index, found⟩
  rcases findIndex_eq_some found with ⟨a', elems', edge', cell', at_index, earlier⟩
  cases edge.symm.trans edge'
  cases cell.symm.trans cell'
  exact ⟨index, by rw [removeValue, found, Option.map_some], at_index, earlier⟩

/-- Removing a value from a list of one version takes its first position when it is there, and finds no element of
    another version. -/
structure History.Separate (lib : FragmentLibrary U) (modeluri : U) (s : History) : Prop where
  found : ∀ (object : Val) (feature : String) (a : Nat) (elems : List Val), s.heap.child object feature = some (.ref a) →
    s.heap.cell? a = some (.array elems) → ∀ value ∈ elems, ∃ index,
      removeValue lib s.heap modeluri object feature value = some (removeValueAt lib s.heap modeluri object feature index) ∧
        elems[index]? = some value ∧ ∀ i < index, elems[i]? ≠ some value
  elsewhere : ∀ (i j : Nat) (model other : Val), s.versions[i]? = some model → s.versions[j]? = some other → i ≠ j →
    ∀ (object : Val) (feature : String) (a : Nat), s.heap.Reaches model object → s.heap.Reaches other (.ref a) →
      removeValue lib s.heap modeluri object feature (.ref a) = none

/-- Whatever updates a holder of a model gets, in place and into copies, the versions of the model stay separate, and
    no cell of an earlier version is changed any more. -/
theorem versions_separate {jsonPatch : JsonPatchLibrary} (confined : jsonPatch.Confined) (lib : FragmentLibrary U)
    (modeluri : U) (document : Json) (updates : List Update) :
    (History.run jsonPatch document updates).Separate lib modeluri ∧
      ∀ model ∈ (History.run jsonPatch document updates).earlier, ∀ a,
        (History.run jsonPatch document updates).heap.Reaches model (.ref a) → ∀ more : List Update,
          (History.run jsonPatch document (updates ++ more)).heap.cell? a =
            (History.run jsonPatch document updates).heap.cell? a := by
  rcases History.updates_layered confined updates (History.start_layered document) with ⟨base, -, layered, -⟩
  refine ⟨⟨fun object feature a elems edge cell value member => removeValue_member edge cell member, ?_⟩, ?_⟩
  · intro i j model other at_i at_j different object feature a object_of element
    exact removeValue_elsewhere (layered.versions.apart_of_ne at_i at_j different) object_of element
  · intro model member a reached more
    rcases History.updates_layered confined more layered with ⟨_, -, -, kept⟩
    rw [History.run, List.foldl_append]
    exact kept a (layered.earlier.lt_top model member a reached)

/-- In place, into a copy, and in place again. -/
def editing : List Update :=
  [⟨.notification addObject, false, none⟩, ⟨.notification addObject, true, none⟩, ⟨.notification addObject, false, none⟩]

theorem versions_separate_editing : (History.run rfc6902 (.obj []) editing).versions = [.ref 8, .ref 0] ∧
    (History.run rfc6902 (.obj []) editing).Separate coffeeFragments () ∧
      ∀ model ∈ (History.run rfc6902 (.obj []) editing).earlier, ∀ a,
        (History.run rfc6902 (.obj []) editing).heap.Reaches model (.ref a) → ∀ more : List Update,
          (History.run rfc6902 (.obj []) (editing ++ more)).heap.cell? a = (History.run rfc6902 (.obj []) editing).heap.cell? a :=
  ⟨by rfl, versions_separate confined_rfc6902 coffeeFragments () (.obj []) editing⟩

end Elements

end ModelServer.Patches
