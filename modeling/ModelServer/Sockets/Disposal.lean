import ModelServer.Sockets.Frontends

namespace ModelServer.Sockets

variable {F : Type}

namespace TheiaBackendModelServerClient

/-- The listener of the options, else the current frontend client. -/
def subscribe (b : Backend F) (modeluri : String) (options : OptionsArgument F) : Backend F × Except String Unit :=
  let options := options.value
  let (client, result) :=
    V1.subscribe b.client modeluri (options.listener.or b.subscriptionClient) options.errorWhenUnsuccessful
  ({ b with client }, result)

inductive Action (F : Type)
  | subscribe (modeluri : String) (options : OptionsArgument F)
  | unsubscribe (modeluri : String)
  | send (modeluri message : String)
  | setClient (client : Option F)
  | dispose
  | closed (socket : Nat) (listenerThrows : Bool)

def step (b : Backend F) : Action F → Option (Backend F)
  | .subscribe modeluri options => some (subscribe b modeluri options).1
  | .unsubscribe modeluri => some (b.unsubscribe modeluri)
  | .send modeluri message => some { b with client := (b.client.send modeluri message).1 }
  | .setClient client => some (b.setClient client)
  | .dispose => some b.dispose
  | .closed id listenerThrows => (b.client.closed .v1 id listenerThrows).map fun client => { b with client }

def system (F : Type) : Runs.System (Backend F) (Action F) where
  init := .start
  step := step

def Quiet (_ : Backend F) : Action F → Prop
  | .closed _ listenerThrows => listenerThrows = false
  | _ => True

/-- No subscribe replaces an entry, and close events delete their own. -/
def CarefulBackend (b : Backend F) : Action F → Prop
  | .subscribe modeluri options =>
    Careful .v1 b.client (.subscribe modeluri (options.value.listener.or b.subscriptionClient)
      options.value.errorWhenUnsuccessful)
  | .closed id listenerThrows => Careful .v1 b.client (.closed id listenerThrows)
  | _ => True

end TheiaBackendModelServerClient

namespace Client

variable {c c' : Client F}

structure ResubscribableV1 (c : Client F) : Prop where
  fresh : ∀ uri id s, c.openSockets.lookup uri = some id → c.socket? id = some s → s.closeDelivered = false
  refused : ∀ uri listener errorWhenUnsuccessful message,
    (V1.subscribe c uri (some listener) errorWhenUnsuccessful).2 = .error message →
      ∃ id s, c.openSockets.lookup uri = some id ∧ c.socket? id = some s ∧ s.modeluri = uri ∧ s.closeDelivered = false
  accepted : ∀ uri listener errorWhenUnsuccessful,
    (∀ id s, c.socket? id = some s → s.modeluri = uri → s.closeDelivered = true) →
      V1.subscribe c uri (some listener) errorWhenUnsuccessful = (c.doSubscribe (some listener) uri, .ok ())
  empty : (∀ id s, c.socket? id = some s → s.closeDelivered = true) → ∀ uri, c.openSockets.lookup uri = none

theorem Fresh.resubscribable_v1 (f : Fresh c) : ResubscribableV1 c where
  fresh := f.resubscribable.fresh
  refused uri listener := f.resubscribable.refused uri (some listener)
  accepted uri listener := f.resubscribable.accepted uri (some listener)
  empty ended uri := by
    cases found : c.openSockets.lookup uri with
    | none => rfl
    | some id =>
      rcases f uri id found with ⟨s, at_id, -, open_⟩
      rw [ended id s at_id] at open_
      cases open_

end Client

namespace TheiaBackendModelServerClient

variable {b b' : Backend F}

def Action.call (b : Backend F) : Action F → Option (Sockets.Action F)
  | .subscribe modeluri options =>
    some (.subscribe modeluri (options.value.listener.or b.subscriptionClient) options.value.errorWhenUnsuccessful)
  | .unsubscribe modeluri => some (.unsubscribe modeluri)
  | .send modeluri message => some (.send modeluri message)
  | .closed id listenerThrows => some (.closed id listenerThrows)
  | .setClient _ | .dispose => none

theorem step_inherits {a : Action F} (stepped : step b a = some b') : Inherits .v1 b b' (a.call b) := by
  cases a with
  | closed id listenerThrows =>
    rcases Option.map_eq_some_iff.mp stepped with ⟨client, delivered, rfl⟩
    exact .called delivered
  | dispose =>
    cases stepped
    exact .dispose rfl
  | setClient client =>
    cases stepped
    exact .same rfl
  | subscribe | unsubscribe | send =>
    cases stepped
    exact .called rfl

theorem fresh_step (f : b.client.Fresh) {a : Action F} (quiet : Quiet b a) (stepped : step b a = some b') :
    b'.client.Fresh := by
  refine (step_inherits stepped).fresh f fun call called => ?_
  cases a with
  | closed id listenerThrows =>
    cases called
    exact quiet
  | _ =>
    cases called
    try trivial

end TheiaBackendModelServerClient

section Dispose

namespace Client

theorem socket_closeAll (entries : List ((_ : String) × Nat)) (c : Client F) (id : Nat) :
    (entries.foldl (fun c entry => c.close entry.2) c).socket? id =
      if ∃ entry ∈ entries, entry.2 = id then (c.socket? id).map fun s => { s with closeCalled := true }
      else c.socket? id := by
  induction entries generalizing c with
  | nil => simp
  | cons entry rest ih =>
    rw [List.foldl_cons, ih, Client.close, socket_update]
    simp only [List.exists_mem_cons_iff]
    by_cases here : entry.2 = id
    · subst here
      cases c.socket? entry.2 <;> simp
    · rw [if_neg (Ne.symm here)]
      exact if_congr (or_iff_right here).symm rfl rfl

theorem openSockets_closeAll (entries : List ((_ : String) × Nat)) (c : Client F) :
    (entries.foldl (fun c entry => c.close entry.2) c).openSockets = c.openSockets := by
  induction entries generalizing c with
  | nil => rfl
  | cons entry rest ih => exact ih _

theorem mem_entries_iff (c : Client F) (id : Nat) :
    (∃ entry ∈ c.openSockets.entries, entry.2 = id) ↔ ∃ uri, c.openSockets.lookup uri = some id := by
  constructor
  · intro given
    rcases given with ⟨⟨uri, i⟩, member, rfl⟩
    exact ⟨uri, AList.mem_lookup_iff.mpr member⟩
  · intro given
    rcases given with ⟨uri, found⟩
    exact ⟨⟨uri, id⟩, AList.mem_lookup_iff.mp found, rfl⟩

end Client

namespace Backend

variable (b : Backend F)

theorem openSockets_dispose : b.dispose.client.openSockets = b.client.openSockets :=
  Client.openSockets_closeAll _ b.client

open Classical in
theorem socket_dispose (id : Nat) :
    b.dispose.client.socket? id =
      if ∃ uri, b.client.openSockets.lookup uri = some id
        then (b.client.socket? id).map fun s => { s with closeCalled := true } else b.client.socket? id := by
  have all := Client.socket_closeAll b.client.openSockets.entries b.client id
  simp only [Client.mem_entries_iff] at all
  exact all

/-- `dispose` ends the sockets of the map, and these only. -/
theorem live_dispose_iff (id : Nat) :
    (∃ s, b.dispose.client.socket? id = some s ∧ s.Live) ↔
      (∃ s, b.client.socket? id = some s ∧ s.Live) ∧ ∀ uri, b.client.openSockets.lookup uri ≠ some id := by
  rw [socket_dispose]
  by_cases held : ∃ uri, b.client.openSockets.lookup uri = some id
  · rw [if_pos held]
    constructor
    · intro given
      rcases given with ⟨s, closed, live⟩
      rcases Option.map_eq_some_iff.mp closed with ⟨s', -, rfl⟩
      exact absurd live.1 nofun
    · intro given
      rcases held with ⟨uri, found⟩
      exact absurd found (given.2 uri)
  · rw [if_neg held]
    rw [not_exists] at held
    exact ⟨fun given => ⟨given, held⟩, fun given => given.1⟩

variable {b}

theorem dispose_ends (t : b.client.Tracked) {id : Nat} {s : Socket F} (at_id : b.dispose.client.socket? id = some s) :
    ¬ s.Live := by
  intro live
  rcases (live_dispose_iff b id).mp ⟨s, at_id, live⟩ with ⟨⟨s', before, live'⟩, free⟩
  exact free s'.modeluri (t.live id s' before live')

end Backend

theorem Inherits.tracked {version : Version} {b b' : Backend F} {called : Option (Action F)}
    (inherits : Inherits version b b' called) (t : b.client.Tracked)
    (careful : ∀ call, called = some call → Careful version b.client call) : b'.client.Tracked := by
  refine inherits.preserves (fun call same stepped => t.step (careful call same) stepped) (fun c id t => ?_) t
  exact t.update (fun _ => rfl) fun _ live => absurd live.1 nofun

theorem TheiaBackendModelServerClient.tracked_step {b b' : Backend F} (t : b.client.Tracked)
    {a : TheiaBackendModelServerClient.Action F} (careful : CarefulBackend b a) (stepped : step b a = some b') :
    b'.client.Tracked := by
  refine (step_inherits stepped).tracked t fun call called => ?_
  cases a with
  | subscribe modeluri options =>
    cases called
    exact careful
  | closed id listenerThrows =>
    cases called
    exact careful
  | _ =>
    cases called
    try trivial

def CarefulBackendV2 (b : Backend F) : BackendAction F → Prop
  | .subscribe modeluri _ options =>
    options.value.errorWhenUnsuccessful = true ∨ b.client.openSockets.lookup modeluri = none
  | .selfSubscribe modeluri options =>
    options.value.errorWhenUnsuccessful = true ∨ b.client.openSockets.lookup modeluri = none
  | _ => True

theorem Backend.tracked_step {b b' : Backend F} (t : b.client.Tracked) {a : BackendAction F}
    (careful : CarefulBackendV2 b a) (stepped : backendStep b a = some b') : b'.client.Tracked := by
  refine (backendStep_inherits stepped).tracked t fun call called => ?_
  cases a with
  | subscribe modeluri listener options =>
    cases called
    exact careful.imp_right .inl
  | selfSubscribe modeluri options =>
    cases called
    exact careful.imp_right .inl
  | closed id listenerThrows =>
    cases called
    exact .inl rfl
  | _ =>
    cases called
    try trivial

/-- What `dispose` leaves: nothing that the service could still hear from, and the map as it was. -/
structure Disposed (b : Backend F) : Prop where
  none_live : ∀ id s, b.dispose.client.socket? id = some s → ¬ s.Live
  openSockets : b.dispose.client.openSockets = b.client.openSockets

/-- `dispose` ends the sockets of the map in any state, and so every socket in the runs of both services in which no
    socket has lost its entry to another one. -/
theorem dispose_spec :
    (∀ (b : Backend F) (id : Nat), (∃ s, b.dispose.client.socket? id = some s ∧ s.Live) ↔
      (∃ s, b.client.socket? id = some s ∧ s.Live) ∧ ∀ uri, b.client.openSockets.lookup uri ≠ some id) ∧
    (∀ (as : List (TheiaBackendModelServerClient.Action F)) (b : Backend F),
      Runs.Reached (TheiaBackendModelServerClient.system F) TheiaBackendModelServerClient.CarefulBackend as b →
      Disposed b) ∧
    ∀ (as : List (BackendAction F)) (b : Backend F), Runs.Reached (backendSystem F) CarefulBackendV2 as b →
      Disposed b := by
  let tracked := fun b : Backend F => b.client.Tracked
  have disposed {b : Backend F} (t : tracked b) : Disposed b :=
    ⟨fun _ _ at_id => Backend.dispose_ends t at_id, Backend.openSockets_dispose b⟩
  refine ⟨Backend.live_dispose_iff, ?_, ?_⟩
  · intro as b run
    have held : tracked b := run.invariant
      (fun _ _ _ t careful stepped => TheiaBackendModelServerClient.tracked_step t careful stepped) .start
    exact disposed held
  · intro as b run
    have held : tracked b := run.invariant (fun _ _ _ t careful stepped => Backend.tracked_step t careful stepped) .start
    exact disposed held

theorem dispose_spec_subscribed :
    ∃ b : Backend String, Runs.Reached (TheiaBackendModelServerClient.system String)
      TheiaBackendModelServerClient.CarefulBackend
      [.setClient (some "frontend"), .subscribe "Coffee.ecore" .undefined, .subscribe "Tea.ecore" .undefined] b ∧
    Disposed b := by
  have run : Runs.Reached (TheiaBackendModelServerClient.system String) TheiaBackendModelServerClient.CarefulBackend
      [.setClient (some "frontend"), .subscribe "Coffee.ecore" .undefined, .subscribe "Tea.ecore" .undefined] _ :=
    .cons trivial rfl (.cons (.inr (.inl rfl)) rfl (.cons (.inr (.inl rfl)) rfl (.nil _)))
  exact ⟨_, run, dispose_spec.2.1 _ _ run⟩

end Dispose

end ModelServer.Sockets
