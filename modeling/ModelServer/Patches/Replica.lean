import ModelServer.Js.PatchLaws
import ModelServer.Message.Transport
import ModelServer.Patches.Holders

namespace ModelServer.Patches
open Js Message Relations

section Library

/-- The model and a patch, each in cells of its own that are read along one path only. -/
def Apart (h : Heap) (patch model : Val) (q t : Json) : Prop :=
  h.Owned (fun _ => False) (slots patch fun _ : Unit => model) (slots q fun _ : Unit => t)

/-- The model reads as the document, in cells that are read along one path only. -/
def Holds (h : Heap) (model : Val) (t : Json) : Prop := Apart h (.prim .null) model (.prim .null) t

/-- No pointer of the operations goes to a prototype, which fast-json-patch refuses. -/
def Permitted {α : Type} (ops : List (Operation α)) : Prop :=
  ∀ op ∈ ops, ∀ path ∈ op.pointers, ∀ tokens, pointer path = some tokens →
    "__proto__" ∉ tokens ∧ ¬ ["constructor", "prototype"] <:+: tokens

/-- What is documented of fast-json-patch: a clone reads as its original, in new cells, and a permitted patch that
    RFC 6902 can apply gives what it says. -/
structure JsonPatchLibrary.Documented (jsonPatch : JsonPatchLibrary) : Prop where
  deepClone : ∀ {h v j}, h.Denotes v j → ∃ h' w, jsonPatch.deepClone h v = some (h', w) ∧ Stored h j h' w
  applyPatch : ∀ {h patch model q t t'}, Apart h patch model q t → Permitted q.operations → t.patched q.operations = some t' →
    ∃ h' w, jsonPatch.applyPatch h model patch = (h', some w) ∧ Holds h' w t'

theorem update_both {α : Type} (null w : α) (roots : Option Unit → α) :
    Function.update (Function.update roots none null) (some ()) w = slots null fun _ => w := by
  funext i
  cases i <;> rfl

theorem documented_rfc6902 : rfc6902.Documented := by
  refine ⟨Heap.deepClone_spec, ?_⟩
  intro h patch model q t t' apart _ result
  have walked : h.walk (slots patch (fun _ : Unit => model) none) [] = some patch := rfl
  have applied := (Heap.applyPatch_of_part apart (Option.some_ne_none ()) walked (apart.denotes none)).1
  have result' : (slots q (fun _ : Unit => t) (some ())).patched (slots q (fun _ : Unit => t) none).operations = some t' := result
  rw [result'] at applied
  simp only [update_both] at applied
  rcases exists_of_rel applied with ⟨w, found, holds⟩
  exact ⟨_, w, Prod.ext rfl found, holds⟩

end Library

section Published

variable {U : Type} {lib : Library}

structure Quiet (m : ModelServerMessage) : Prop where
  incrementalUpdate : m.type = MessageType.incrementalUpdate.value → Operations.isPatch m.data = false
  fullUpdate : m.type = MessageType.fullUpdate.value → AnyObject.is m.data = false

/-- What the server sends to the subscribers of a model. -/
inductive Published (lib : Library)
  | incrementalUpdate (patch : Json) (operations : isJsonPatch patch = true) (permitted : Permitted patch.operations)
  | fullUpdate (model : Json) (object : AnyObject.is model = true)
  | other (event : String) (quiet : ∀ message, received lib event = some message → Quiet message)

namespace Published

def event : Published lib → String
  | incrementalUpdate patch _ _ => lib.stringify (message .incrementalUpdate patch)
  | fullUpdate model _ => lib.stringify (message .fullUpdate model)
  | other event _ => event

def next (document : Json) : Published lib → Option Json
  | incrementalUpdate patch _ _ => document.patched patch.operations
  | fullUpdate model _ => some model
  | other _ _ => some document

end Published

def served (document : Json) (published : List (Published lib)) : Option Json := published.foldlM Published.next document

inductive Change
  | patch (patch : Json)
  | model (model : Json)

namespace Change

/-- A holder of a model takes objects, and not the text of a model. -/
def ofModel (model : Json) : Option Change := if AnyObject.is model then some (.model model) else none

def ofCall : ListenerCallV2 U → Option Change
  | .onIncrementalUpdateV2 _ json _ => some (.patch json)
  | .inherited (.onFullUpdate _ json _) => ofModel json
  | .inherited _ => none

def ofNotification : NotificationV2 U → Option Change
  | .onIncrementalUpdateV2 _ json _ => some (.patch json)
  | .inherited (.onFullUpdate _ json _) => ofModel json
  | .inherited _ => none

end Change

def changes (lib : Library) (modeluri : U) (event : String) (receiver : Receiver) : List Change :=
  receiver.observed Change.ofCall Change.ofNotification lib modeluri event

/-- A subscriber that keeps a model and calls `patchModel` with the version that it has. -/
structure Replica where
  heap : Heap
  model : Val

namespace Replica

variable (jsonPatch : JsonPatchLibrary)

def start (document : Json) : Replica :=
  let (heap, model) := store ⟨[]⟩ document
  { heap, model }

def change (copy : Bool) (r : Replica) : Change → Replica
  | .patch patch =>
    let (heap, v) := store r.heap patch
    match patchModel jsonPatch heap v r.model copy with
    | (heap, some model) => { heap, model }
    | (heap, none) => { r with heap }
  | .model model =>
    let (heap, model) := store r.heap model
    { heap, model }

/-- Every event comes with the choice of patching in place or a copy. -/
def follow (receiver : Receiver) (modeluri : U) (r : Replica) (published : List (Published lib × Bool)) : Replica :=
  published.foldl (fun r (p, copy) => (changes lib modeluri p.event receiver).foldl (change jsonPatch copy) r) r

end Replica

end Published

section Received

variable {U : Type} {lib : Library} {event : String} {m : ModelServerMessage} (modeluri : U)

def changesOf (m : ModelServerMessage) : List Change :=
  if m.type = MessageType.incrementalUpdate.value then if Operations.isPatch m.data then [.patch m.data] else []
  else if m.type = MessageType.fullUpdate.value then (Change.ofModel m.data).toList
  else []

theorem fired_changes :
    (fire (dispatch lib modeluri m)).fired.filterMap (Change.ofNotification ∘ .inherited) =
      if m.type = MessageType.fullUpdate.value then (Change.ofModel m.data).toList else [] := by
  by_cases type : m.type = MessageType.fullUpdate.value
  · have dispatched : dispatch lib modeluri m =
        (orString lib m (MessageDataMapper.asObject m)).map fun model => .onFullUpdate modeluri model .fullUpdate := by
      rw [dispatch, type, MessageType.asMessageType_value]
      cases orString lib m (MessageDataMapper.asObject m) <;> rfl
    rw [if_pos type, dispatched, MessageDataMapper.asObject, asObject]
    cases object : AnyObject.is m.data with
    | true => simp [orString, Except.map, fire, Change.ofNotification, Change.ofModel, object]
    | false =>
      -- the client fires the text of the data, if it has one
      simp only [Bool.false_eq_true, if_false, orString, Change.ofModel, object]
      cases MessageDataMapper.asString lib m <;> rfl
  · rw [if_neg type]
    cases dispatched : dispatch lib modeluri m with
    | error e => rfl
    | ok notification =>
      cases notification with
      | onFullUpdate uri model type' => exact absurd (client_type modeluri dispatched rfl) type
      | _ => rfl

theorem listened_changes :
    (fire (NotificationSubscriptionListener.dispatch lib modeluri m)).fired.filterMap (Change.ofCall ∘ .inherited) =
      if m.type = MessageType.fullUpdate.value then (Change.ofModel m.data).toList else [] := by
  cases dispatched : NotificationSubscriptionListener.dispatch lib modeluri m with
  | ok call =>
    rw [← @fired_changes U lib m modeluri, dispatch_of_listener modeluri dispatched]
    cases call <;> rfl
  | error e =>
    by_cases type : m.type = MessageType.fullUpdate.value
    · rw [NotificationSubscriptionListener.dispatch, type, MessageType.asMessageType_value] at dispatched
      simp only [MessageDataMapper.asObject, asObject] at dispatched
      cases object : AnyObject.is m.data with
      | true =>
        rw [object] at dispatched
        cases dispatched
      | false =>
        rw [if_pos type, Change.ofModel, object]
        rfl
    · rw [if_neg type]
      rfl

/-- Either receiver makes the same of a message. -/
theorem changes_received (came : received lib event = some m) (receiver : Receiver) :
    changes lib modeluri event receiver = changesOf m := by
  have update := incrementalData_received came
  by_cases type : m.type = MessageType.incrementalUpdate.value
  · rw [if_pos type] at update
    rw [changesOf, if_pos type]
    cases patch : Operations.isPatch m.data with
    | true =>
      cases receiver with
      | notificationSubscriptionListenerV2 =>
        rw [changes, Receiver.observed, onMessage_incremental update, if_pos patch]
        rfl
      | modelServerSubscriptionClientV2 =>
        rw [changes, Receiver.observed, onMessageV2_of_patch update patch, superOnMessage, onMessage_of_incremental update,
          incrementalUpdate]
        split
        · rfl
        · cases asString lib m.data <;> rfl
    | false =>
      cases receiver with
      | notificationSubscriptionListenerV2 =>
        rw [changes, Receiver.observed, onMessage_incremental update, patch]
        rfl
      | modelServerSubscriptionClientV2 =>
        rw [changes, Receiver.observed, (onMessageV2_of_not_patch update patch modeluri).1]
        rfl
  · rcases onMessageV2_other modeluri came type with ⟨listened, fired⟩
    rw [changesOf, if_neg type]
    cases receiver with
    | notificationSubscriptionListenerV2 =>
      rw [changes, Receiver.observed, listened, Outcome.map, List.filterMap_map, ← @listened_changes U lib m modeluri]
    | modelServerSubscriptionClientV2 =>
      rw [changes, Receiver.observed, fired, Outcome.map, List.filterMap_map, ← @fired_changes U lib m modeluri]

end Received

section Delivered

variable {U : Type} {lib : Library}

theorem pointers_rel {α β : Type} {R : α → β → Prop} {op : Operation α} {op' : Operation β} (related : Operation.Rel R op op') :
    op.pointers = op'.pointers := by
  cases related <;> rfl

theorem permitted_rel {α β : Type} {R : α → β → Prop} {ops : List (Operation α)} {ops' : List (Operation β)}
    (related : List.Forall₂ (Operation.Rel R) ops ops') (permitted : Permitted ops') : Permitted ops := by
  induction related with
  | nil => exact nofun
  | cons first _ ih =>
    rcases List.forall_mem_cons.mp permitted with ⟨here, later⟩
    refine List.forall_mem_cons.mpr ⟨?_, ih later⟩
    rwa [pointers_rel first]

inductive Published.Announces : Published lib → List Change → Prop
  | patch {patch patch' : Json} {operations : isJsonPatch patch = true} {permitted : Permitted patch.operations}
      (same : patch'.Same patch) : Announces (.incrementalUpdate patch operations permitted) [.patch patch']
  | model {model model' : Json} {object : AnyObject.is model = true} (same : model'.Same model) :
      Announces (.fullUpdate model object) [.model model']
  | other {event : String} {quiet : _} : Announces (.other event quiet) []

theorem changesOf_quiet {m : ModelServerMessage} (quiet : Quiet m) : changesOf m = [] := by
  rw [changesOf]
  split
  · rename_i type
    rw [quiet.incrementalUpdate type]
    rfl
  · split
    · rename_i type
      rw [Change.ofModel, quiet.fullUpdate type]
      rfl
    · rfl

theorem changes_published (faithful : lib.Faithful) (modeluri : U) (receiver : Receiver) (p : Published lib) :
    p.Announces (changes lib modeluri p.event receiver) := by
  cases p with
  | incrementalUpdate patch operations permitted =>
    rcases received_message faithful .incrementalUpdate patch with ⟨m, came, type, same⟩
    have guarded := Operations.isPatch_of_operations ((isJsonPatch_same same).trans operations)
    rw [Published.event, changes_received modeluri came, changesOf, if_pos type, if_pos guarded]
    exact .patch same
  | fullUpdate model object =>
    rcases received_message faithful .fullUpdate model with ⟨m, came, type, same⟩
    have notIncremental : m.type ≠ MessageType.incrementalUpdate.value := by
      rw [type]
      exact value_injective.ne (by decide)
    have taken : AnyObject.is m.data = true := (anyObject_shape same.shape).trans object
    rw [Published.event, changes_received modeluri came, changesOf, if_neg notIncremental, if_pos type, Change.ofModel,
      if_pos taken]
    exact .model same
  | other event quiet =>
    rw [Published.event]
    cases came : received lib event with
    | none =>
      rw [changes, observed_unread modeluri came]
      exact .other
    | some m =>
      rw [changes_received modeluri came, changesOf_quiet (quiet m came)]
      exact .other

end Delivered

section Follow

variable {U : Type} {lib : Library} {jsonPatch : JsonPatchLibrary} {h : Heap} {model patch : Val} {q t t' : Json} {r : Replica}

theorem update_patch {α : Type} (x y : α) (model : α) :
    Function.update (slots x fun _ : Unit => model) none y = slots y fun _ => model := by
  funext i
  cases i <;> rfl

theorem update_model {α : Type} (patch x y : α) :
    Function.update (slots patch fun _ : Unit => x) (some ()) y = slots patch fun _ => y := by
  funext i
  cases i <;> rfl

theorem store_holds (h : Heap) (document : Json) : Holds (store h document).1 (store h document).2 document :=
  load_owned (none_owned h) () document

theorem Holds.of_same (holds : Holds h model t) (same : t.Same t') : Holds h model t' := by
  refine ⟨fun i => ?_, holds.apart, holds.closed, holds.live⟩
  cases i with
  | none => exact holds.denotes none
  | some one => exact (holds.denotes (some one)).of_same same

theorem Holds.store_apart (holds : Holds h model t) (q : Json) : Apart (store h q).1 (store h q).2 model q t := by
  have own := Heap.Owned.putFresh holds (store_spec q h) none
  rwa [update_patch, update_patch] at own

theorem patchModel_holds (documented : jsonPatch.Documented) (apart : Apart h patch model q t) (permitted : Permitted q.operations)
    (applies : t.patched q.operations = some t') (copy : Bool) :
    ∃ h' w, patchModel jsonPatch h patch model copy = (h', some w) ∧ Holds h' w t' := by
  have prepared : ∃ h' w, (if copy then jsonPatch.deepClone h model else some (h, model)) = some (h', w) ∧
      Apart h' patch w q t := by
    cases copy with
    | false => exact ⟨h, model, rfl, apart⟩
    | true =>
      rcases documented.deepClone (apart.denotes (some ())) with ⟨h', w, cloned, stored⟩
      have own := Heap.Owned.putFresh apart stored (some ())
      rw [update_model, update_model] at own
      exact ⟨h', w, cloned, own⟩
  rcases prepared with ⟨h', w, cloned, apart'⟩
  rw [patchModel_of_cloned jsonPatch cloned]
  exact documented.applyPatch apart' permitted applies

def Replica.Has (r : Replica) (document : Json) : Prop := Holds r.heap r.model document

theorem change_patch_has (documented : jsonPatch.Documented) (has : r.Has t) {patch : Json} (permitted : Permitted patch.operations)
    (copy : Bool) (applies : t.patched patch.operations = some t') : (r.change jsonPatch copy (.patch patch)).Has t' := by
  rcases patchModel_holds documented (has.store_apart patch) permitted applies copy with ⟨h', w, called, holds⟩
  simp only [Replica.change, called]
  exact holds

theorem announced_has (documented : jsonPatch.Documented) {p : Published lib} {changes : List Change}
    (announced : p.Announces changes) (copy : Bool) (has : r.Has t) (next : p.next t = some t') :
    (changes.foldl (Replica.change jsonPatch copy) r).Has t' := by
  cases announced with
  | @patch patch patch' operations permitted same =>
    have related := Json.operations_same same
    have results := Json.patched_same related (Json.Same.refl t)
    have applies : t.patched patch.operations = some t' := next
    rw [applies] at results
    rcases exists_of_rel results with ⟨t₁, applies', result_same⟩
    exact (change_patch_has documented has (permitted_rel related permitted) copy applies').of_same result_same
  | model same =>
    cases next
    exact (store_holds r.heap _).of_same same
  | other =>
    cases next
    exact has

theorem follow_has (documented : jsonPatch.Documented) (faithful : lib.Faithful) (receiver : Receiver) (modeluri : U)
    {published : List (Published lib × Bool)} :
    ∀ {r : Replica} {t : Json}, r.Has t → served t (published.map Prod.fst) = some t' →
      (r.follow jsonPatch receiver modeluri published).Has t' := by
  induction published with
  | nil =>
    intro r t has reached
    cases reached
    exact has
  | cons first rest ih =>
    intro r t has reached
    rw [served, List.map_cons, List.foldlM_cons] at reached
    rcases Option.bind_eq_some_iff.mp reached with ⟨t₁, next, later⟩
    exact ih (announced_has documented (changes_published faithful modeluri receiver first.1) first.2 has next) later

/-- A subscriber that starts with the document of the server has it after every run of updates and other messages, with
    each patch applied in place or to a copy. -/
theorem replica_follows (documented : jsonPatch.Documented) (faithful : lib.Faithful) (receiver : Receiver) (modeluri : U)
    {published : List (Published lib × Bool)} (reached : served t (published.map Prod.fst) = some t') :
    ((Replica.start t).follow jsonPatch receiver modeluri published).heap.Denotes
      ((Replica.start t).follow jsonPatch receiver modeluri published).model t' := by
  have has := follow_has documented faithful receiver modeluri (show (Replica.start t).Has t from store_holds ⟨[]⟩ t) reached
  exact has.denotes (some ())

def machine (name : String) : Json := .obj [("name", .prim (.string name))]

theorem permitted_replaceName : Permitted (Json.arr [replaceName]).operations := by
  intro op member path inside tokens target
  cases List.mem_singleton.mp member
  cases List.mem_singleton.mp inside
  cases target
  decide

theorem quiet_brokenUpdate (m : ModelServerMessage)
    (came : received textLibrary (textLibrary.stringify (message .incrementalUpdate (.prim (.bool true)))) = some m) : Quiet m := by
  rcases received_message faithful_textLibrary .incrementalUpdate (.prim (.bool true)) with ⟨m', came', type, same⟩
  cases came.symm.trans came'
  have shape := same.shape
  refine ⟨fun _ => ?_, fun full => ?_⟩
  · cases data : m.data with
    | prim p => rfl
    | arr elems =>
      rw [data] at shape
      cases shape
    | obj props => rfl
  · cases value_injective (type.symm.trans full)

/-- A patch, an update that is none, the whole model, and a patch again. -/
def broadcast : List (Published textLibrary × Bool) :=
  [(.incrementalUpdate (.arr [replaceName]) rfl permitted_replaceName, false),
    (.other (textLibrary.stringify (message .incrementalUpdate (.prim (.bool true)))) quiet_brokenUpdate, false),
    (.fullUpdate (machine "Grind") rfl, false),
    (.incrementalUpdate (.arr [replaceName]) rfl permitted_replaceName, true)]

theorem replica_follows_broadcast :
    ((Replica.start (machine "Heat")).follow rfc6902 .modelServerSubscriptionClientV2 () broadcast).heap.Denotes
      ((Replica.start (machine "Heat")).follow rfc6902 .modelServerSubscriptionClientV2 () broadcast).model (machine "Brew") :=
  replica_follows documented_rfc6902 faithful_textLibrary .modelServerSubscriptionClientV2 () (by rfl)

end Follow

end ModelServer.Patches
