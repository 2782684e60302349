import ModelServer.Sockets.Subscriptions

namespace ModelServer.Sockets

/-- An argument in the place of a listener, which an RPC call may fill with its cancellation token. -/
inductive ListenerArgument (F : Type)
  | undefined
  | cancellationToken
  | listener (listener : F)

structure SubscriptionOptions (F : Type) where
  listener : Option F := none
  errorWhenUnsuccessful : Bool := false

inductive OptionsArgument (F : Type)
  | undefined
  | cancellationToken
  | options (options : SubscriptionOptions F)

variable {F : Type}

/-- The default value stands for undefined, and a cancellation token has none of the options. -/
def OptionsArgument.value : OptionsArgument F → SubscriptionOptions F
  | .undefined | .cancellationToken => {}
  | .options given => given

structure Backend (F : Type) where
  client : Client F
  subscriptionClient : Option F

namespace Backend

def start : Backend F := ⟨.start, none⟩

def dispose (b : Backend F) : Backend F :=
  { b with client := b.client.openSockets.entries.foldl (fun c entry => c.close entry.2) b.client }

def setClient (b : Backend F) (client : Option F) : Backend F := { b with subscriptionClient := client }

/-- The listener argument, else the listener of the options, else the current frontend client. -/
def chooseListener (b : Backend F) (listener : ListenerArgument F) (options : SubscriptionOptions F) : Option F :=
  match listener with
  | .listener listener => some listener
  | .undefined | .cancellationToken => options.listener.or b.subscriptionClient

def subscribe (b : Backend F) (modeluri : String) (listener : ListenerArgument F) (options : OptionsArgument F) :
    Backend F × Except String Unit :=
  let options := options.value
  let (client, result) := V2.subscribe b.client modeluri (b.chooseListener listener options) options.errorWhenUnsuccessful
  ({ b with client }, result)

def selfSubscribe (b : Backend F) (modeluri : String) (options : OptionsArgument F) : Backend F × Except String Unit :=
  b.subscribe modeluri .undefined (.options options.value)

def unsubscribe (b : Backend F) (modeluri : String) : Backend F := { b with client := (b.client.unsubscribe modeluri).1 }

def send (b : Backend F) (modeluri message : String) : Backend F := { b with client := (b.client.send modeluri message).1 }

def closed (b : Backend F) (id : Nat) (listenerThrows : Bool) : Option (Backend F) :=
  (b.client.closed .v2 id listenerThrows).map fun client => { b with client }

end Backend

inductive BackendAction (F : Type)
  | subscribe (modeluri : String) (listener : ListenerArgument F) (options : OptionsArgument F)
  | selfSubscribe (modeluri : String) (options : OptionsArgument F)
  | unsubscribe (modeluri : String)
  | send (modeluri message : String)
  | setClient (client : Option F)
  | dispose
  | closed (socket : Nat) (listenerThrows : Bool)

def backendStep (b : Backend F) : BackendAction F → Option (Backend F)
  | .subscribe modeluri listener options => some (b.subscribe modeluri listener options).1
  | .selfSubscribe modeluri options => some (b.selfSubscribe modeluri options).1
  | .unsubscribe modeluri => some (b.unsubscribe modeluri)
  | .send modeluri message => some (b.send modeluri message)
  | .setClient client => some (b.setClient client)
  | .dispose => some b.dispose
  | .closed id listenerThrows => b.closed id listenerThrows

def backendSystem (F : Type) : Runs.System (Backend F) (BackendAction F) where
  init := .start
  step := backendStep

section Inherited

/-- The call of the client that a call of its Theia subclass comes down to. -/
def BackendAction.call (b : Backend F) : BackendAction F → Option (Action F)
  | .subscribe modeluri listener options =>
    some (.subscribe modeluri (b.chooseListener listener options.value) options.value.errorWhenUnsuccessful)
  | .selfSubscribe modeluri options =>
    some (.subscribe modeluri (b.chooseListener .undefined options.value) options.value.errorWhenUnsuccessful)
  | .unsubscribe modeluri => some (.unsubscribe modeluri)
  | .send modeluri message => some (.send modeluri message)
  | .closed id listenerThrows => some (.closed id listenerThrows)
  | .setClient _ | .dispose => none

/-- A step of a backend service is one of its client, or closes sockets, or leaves the client as it is. -/
inductive Inherits (version : Version) (b b' : Backend F) : Option (Action F) → Prop
  | called {call : Action F} (stepped : step version b.client call = some b'.client) : Inherits version b b' (some call)
  | dispose (disposed : b'.client = b.dispose.client) : Inherits version b b' none
  | same (same : b'.client = b.client) : Inherits version b b' none

variable {b b' : Backend F}

theorem dispose_preserves {inv : Client F → Prop} (close : ∀ c id, inv c → inv (c.close id)) (held : inv b.client) :
    inv b.dispose.client := by
  change inv (b.client.openSockets.entries.foldl (fun c entry => c.close entry.2) b.client)
  generalize b.client.openSockets.entries = entries
  revert held
  generalize b.client = c
  induction entries generalizing c with
  | nil => exact id
  | cons entry rest ih => exact fun held => ih _ (close c entry.2 held)

/-- What the steps of the client and closing a socket preserve, the steps of its subclass preserve. -/
theorem Inherits.preserves {version : Version} {called : Option (Action F)} {inv : Client F → Prop}
    (inherits : Inherits version b b' called)
    (stepped : ∀ call, called = some call → step version b.client call = some b'.client → inv b'.client)
    (close : ∀ c id, inv c → inv (c.close id)) (held : inv b.client) : inv b'.client := by
  cases inherits with
  | called stepped' => exact stepped _ rfl stepped'
  | dispose disposed =>
    rw [disposed]
    exact dispose_preserves close held
  | same same => rwa [same]

theorem backendStep_inherits {a : BackendAction F} (stepped : backendStep b a = some b') : Inherits .v2 b b' (a.call b) := by
  cases a with
  | closed id listenerThrows =>
    rcases Option.map_eq_some_iff.mp stepped with ⟨client, delivered, rfl⟩
    exact .called delivered
  | dispose =>
    cases stepped
    exact .dispose rfl
  | setClient client =>
    cases stepped
    exact .same rfl
  | subscribe | selfSubscribe | unsubscribe | send =>
    cases stepped
    exact .called rfl

end Inherited

def Client.Fresh (c : Client F) : Prop := c.Entries fun s => s.closeDelivered = false

def Released (c : Client F) : Action F → Prop
  | .closed id _ => ∀ uri, c.openSockets.lookup uri ≠ some id
  | _ => True

/-- No listener throws when it is told that its socket is closed. -/
def QuietClient (_ : Client F) : Action F → Prop
  | .closed _ listenerThrows => listenerThrows = false
  | _ => True

/-- What keeps closed sockets out of the map: the first client deletes their entries, the second one does not. -/
def Version.Frees : Version → Client F → Action F → Prop
  | .v1 => QuietClient
  | .v2 => Released

def BackendReleased (b : Backend F) : BackendAction F → Prop
  | .closed id _ => ∀ uri, b.client.openSockets.lookup uri ≠ some id
  | _ => True

namespace Client

variable {c c' : Client F}

theorem Fresh.openUnlessSubscribed (f : Fresh c) (modeluri : String) (listener : Option F)
    (errorWhenUnsuccessful : Bool) : Fresh (openUnlessSubscribed c modeluri listener errorWhenUnsuccessful).1 := by
  unfold Sockets.openUnlessSubscribed
  split
  · split
    · exact f
    · have warned : Fresh (c.warn (alreadySubscribed modeluri)) := f
      exact warned.doSubscribe rfl
  · exact f.doSubscribe rfl

theorem Fresh.close (f : Fresh c) (id : Nat) : Fresh (c.close id) :=
  f.update (fun _ => rfl) fun _ _ _ open_ => open_

theorem Fresh.unsubscribe (f : Fresh c) (modeluri : String) : Fresh (c.unsubscribe modeluri).1 := by
  unfold Client.unsubscribe
  split
  · rename_i openSocket _
    exact (f.close openSocket).delete modeluri
  · exact f

theorem Fresh.send (f : Fresh c) (modeluri message : String) : Fresh (c.send modeluri message).1 := by
  unfold Client.send
  split
  · exact f.update (fun _ => rfl) fun _ _ _ open_ => open_
  · exact f

/-- The entry of the socket that is closed goes, and every other one is that of another socket. -/
theorem Fresh.freed (f : Fresh c) {id : Nat} {s : Socket F} (at_id : c.socket? id = some s) :
    Fresh ((c.update id fun s => { s with closeDelivered := true }).delete s.modeluri) := by
  intro uri i found
  rw [lookup_delete] at found
  split at found
  · cases found
  · rename_i other
    rcases f uri i found with ⟨s', at_i, here, open_⟩
    have different : i ≠ id := by
      intro same
      rw [same, at_id] at at_i
      cases at_i
      exact other here.symm
    refine ⟨s', ?_, here, open_⟩
    change (c.update id _).socket? i = _
    rw [socket_update, if_neg different, at_i]

theorem Fresh.closed (f : Fresh c) {version : Version} {id : Nat} {listenerThrows : Bool}
    (frees : version.Frees c (.closed id listenerThrows)) (delivered : c.closed version id listenerThrows = some c') :
    Fresh c' := by
  unfold Client.closed at delivered
  cases at_id : c.socket? id with
  | none => simp [at_id] at delivered
  | some s =>
    simp only [at_id] at delivered
    split at delivered
    · cases delivered
    · rw [← Option.some.inj delivered]
      cases version with
      | v1 =>
        cases frees
        exact f.freed at_id
      | v2 => exact f.update (fun _ => rfl) fun uri _ held _ => absurd held (frees uri)

theorem Fresh.subscribe (f : Fresh c) (version : Version) (modeluri : String) (listener : Option F)
    (errorWhenUnsuccessful : Bool) : Fresh (version.subscribe c modeluri listener errorWhenUnsuccessful).1 := by
  cases version with
  | v1 =>
    cases listener with
    | none => exact f
    | some l => exact f.openUnlessSubscribed modeluri (some l) errorWhenUnsuccessful
  | v2 => exact f.openUnlessSubscribed modeluri listener errorWhenUnsuccessful

theorem Fresh.step (f : Fresh c) {version : Version} {a : Action F} (frees : version.Frees c a)
    (stepped : Sockets.step version c a = some c') : Fresh c' := by
  cases a with
  | subscribe modeluri listener errorWhenUnsuccessful =>
    rw [← Option.some.inj stepped]
    exact f.subscribe version modeluri listener errorWhenUnsuccessful
  | unsubscribe modeluri =>
    rw [← Option.some.inj stepped]
    exact f.unsubscribe modeluri
  | send modeluri message =>
    rw [← Option.some.inj stepped]
    exact f.send modeluri message
  | closed id listenerThrows => exact f.closed frees stepped

/-- With fresh entries only, a subscription is refused while its socket is open, and accepted afterwards. -/
structure Resubscribable (c : Client F) : Prop where
  fresh : ∀ uri id s, c.openSockets.lookup uri = some id → c.socket? id = some s → s.closeDelivered = false
  refused : ∀ uri listener errorWhenUnsuccessful message,
    (V2.subscribe c uri listener errorWhenUnsuccessful).2 = .error message →
      ∃ id s, c.openSockets.lookup uri = some id ∧ c.socket? id = some s ∧ s.modeluri = uri ∧ s.closeDelivered = false
  accepted : ∀ uri listener errorWhenUnsuccessful,
    (∀ id s, c.socket? id = some s → s.modeluri = uri → s.closeDelivered = true) →
      V2.subscribe c uri listener errorWhenUnsuccessful = (c.doSubscribe listener uri, .ok ())

theorem Fresh.resubscribable (f : Fresh c) : Resubscribable c where
  fresh uri id s found at_id := by
    rcases f uri id found with ⟨s', at_id', -, open_⟩
    cases at_id.symm.trans at_id'
    exact open_
  refused uri listener errorWhenUnsuccessful message refused := by
    cases found : c.openSockets.lookup uri with
    | none =>
      unfold V2.subscribe at refused
      rw [openUnlessSubscribed_free found] at refused
      cases refused
    | some id =>
      rcases f uri id found with ⟨s, at_id, here, open_⟩
      exact ⟨id, s, rfl, at_id, here, open_⟩
  accepted uri listener errorWhenUnsuccessful ended := by
    apply openUnlessSubscribed_free
    cases found : c.openSockets.lookup uri with
    | none => rfl
    | some id =>
      rcases f uri id found with ⟨s, at_id, here, open_⟩
      rw [ended id s at_id here] at open_
      cases open_

end Client

theorem Inherits.fresh {version : Version} {b b' : Backend F} {called : Option (Action F)}
    (inherits : Inherits version b b' called) (f : b.client.Fresh)
    (frees : ∀ call, called = some call → version.Frees b.client call) : b'.client.Fresh :=
  inherits.preserves (fun call same stepped => f.step (frees call same) stepped) (fun _ id f => f.close id) f

theorem Backend.fresh_step {b b' : Backend F} (f : b.client.Fresh) {a : BackendAction F} (released : BackendReleased b a)
    (stepped : backendStep b a = some b') : b'.client.Fresh := by
  refine (backendStep_inherits stepped).fresh f fun call called => ?_
  cases a with
  | closed id listenerThrows =>
    cases called
    exact released
  | _ =>
    cases called
    try trivial

/-- In every run of the second client, and of its Theia subclass, in which no close event is delivered to a
    socket that the map still holds, no entry holds a closed socket. -/
theorem entries_open_while_held :
    (∀ (as : List (Action F)) (c : Client F), Runs.Reached (system F .v2) Released as c → c.Resubscribable) ∧
    ∀ (as : List (BackendAction F)) (b : Backend F), Runs.Reached (backendSystem F) BackendReleased as b →
      b.client.Resubscribable := by
  constructor
  · intro as c run
    have held : c.Fresh := run.invariant (fun _ _ _ f released stepped => f.step (show Version.v2.Frees _ _ from released) stepped) .start
    exact held.resubscribable
  · intro as b run
    let fresh := fun b : Backend F => b.client.Fresh
    have held : fresh b := run.invariant (fun _ _ _ f released stepped => Backend.fresh_step f released stepped) .start
    exact held.resubscribable

theorem entries_open_while_held_unsubscribed :
    ∃ b : Backend String, Runs.Reached (backendSystem String) BackendReleased
      [.setClient (some "frontend"), .selfSubscribe "Coffee.ecore" .cancellationToken, .unsubscribe "Coffee.ecore",
        .closed 0 false, .selfSubscribe "SuperBrewer3000.coffee" .undefined, .send "SuperBrewer3000.coffee" "message"] b ∧
    b.client.openSockets.lookup "SuperBrewer3000.coffee" = some 1 ∧ b.client.Resubscribable := by
  have run : Runs.Reached (backendSystem String) BackendReleased
      [.setClient (some "frontend"), .selfSubscribe "Coffee.ecore" .cancellationToken, .unsubscribe "Coffee.ecore",
        .closed 0 false, .selfSubscribe "SuperBrewer3000.coffee" .undefined, .send "SuperBrewer3000.coffee" "message"] _ :=
    .cons trivial rfl (.cons trivial rfl (.cons trivial rfl (.cons (fun _ => nofun) rfl
      (.cons trivial rfl (.cons trivial rfl (.nil _))))))
  exact ⟨_, run, rfl, entries_open_while_held.2 _ _ run⟩

/-- After the server closed the socket of a model, or `dispose` did, the model cannot be subscribed again. -/
theorem closed_entry_stays :
    (∃ c : Client String, Runs.Reached (system String .v2) (fun _ _ => True)
      [.subscribe "Coffee.ecore" (some "listener") true, .closed 0 false] c ∧
      (∃ s, c.openSockets.lookup "Coffee.ecore" = some 0 ∧ c.socket? 0 = some s ∧ s.closeDelivered = true) ∧
      (V2.subscribe c "Coffee.ecore" (some "listener") true).2 = .error (alreadySubscribed "Coffee.ecore")) ∧
    ∃ b : Backend String, Runs.Reached (backendSystem String) (fun _ _ => True)
      [.setClient (some "frontend"), .selfSubscribe "Coffee.ecore" .undefined, .dispose, .closed 0 false] b ∧
      (∃ s, b.client.openSockets.lookup "Coffee.ecore" = some 0 ∧ b.client.socket? 0 = some s ∧
        s.closeDelivered = true) ∧
      (b.selfSubscribe "Coffee.ecore" (.options { errorWhenUnsuccessful := true })).2 =
        .error (alreadySubscribed "Coffee.ecore") := by
  constructor
  · exact ⟨_, .cons trivial rfl (.cons trivial rfl (.nil _)), ⟨_, rfl, rfl, rfl⟩, rfl⟩
  · exact ⟨_, .cons trivial rfl (.cons trivial rfl (.cons trivial rfl (.cons trivial rfl (.nil _)))), ⟨_, rfl, rfl, rfl⟩,
      rfl⟩

end ModelServer.Sockets
