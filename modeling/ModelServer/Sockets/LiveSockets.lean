import ModelServer.Sockets.Subscriptions

namespace ModelServer.Sockets

variable {L : Type}

namespace Client

variable {c : Client L}

theorem send_entry {modeluri : String} {id : Nat} {s : Socket L} (entry : c.openSockets.lookup modeluri = some id)
    (at_id : c.socket? id = some s) (message : String) :
    (c.send modeluri message).2 = true ∧
    (c.send modeluri message).1.socket? id = some { s with sent := s.sent ++ [message] } := by
  unfold Client.send
  rw [entry]
  refine ⟨rfl, ?_⟩
  rw [socket_update, if_pos rfl, at_id]
  rfl

theorem unsubscribe_entry {modeluri : String} {id : Nat} {s : Socket L}
    (entry : c.openSockets.lookup modeluri = some id) (at_id : c.socket? id = some s) :
    (c.unsubscribe modeluri).2 = true ∧
    (c.unsubscribe modeluri).1.socket? id = some { s with closeCalled := true } := by
  unfold Client.unsubscribe
  rw [entry]
  refine ⟨rfl, ?_⟩
  change (c.close id).socket? id = _
  unfold Client.close
  rw [socket_update, if_pos rfl, at_id]
  rfl

structure Held (c : Client L) (id : Nat) (s : Socket L) : Prop where
  entry : c.openSockets.lookup s.modeluri = some id
  send : ∀ message, (c.send s.modeluri message).2 = true ∧
    (c.send s.modeluri message).1.socket? id = some { s with sent := s.sent ++ [message] }
  unsubscribe : (c.unsubscribe s.modeluri).2 = true ∧
    (c.unsubscribe s.modeluri).1.socket? id = some { s with closeCalled := true }

theorem Tracked.held (t : Tracked c) {id : Nat} {s : Socket L} (at_id : c.socket? id = some s) (live : s.Live) :
    Held c id s where
  entry := t.live id s at_id live
  send := send_entry (t.live id s at_id live) at_id
  unsubscribe := unsubscribe_entry (t.live id s at_id live) at_id

theorem Tracked.unique (t : Tracked c) {id id' : Nat} {s s' : Socket L} (at_id : c.socket? id = some s)
    (at_id' : c.socket? id' = some s') (live : s.Live) (live' : s'.Live) (same : s.modeluri = s'.modeluri) : id = id' := by
  have entry := t.live id s at_id live
  rw [same, t.live id' s' at_id' live'] at entry
  exact (Option.some.inj entry).symm

theorem Tracked.unsubscribed (t : Tracked c) (modeluri : String) {id : Nat} {s : Socket L}
    (at_id : (c.unsubscribe modeluri).1.socket? id = some s) (here : s.modeluri = modeluri) : ¬ s.Live := by
  intro live
  have held := (t.unsubscribe modeluri).live id s at_id live
  rw [here] at held
  unfold Client.unsubscribe at held
  split at held
  · rw [lookup_delete, if_pos rfl] at held
    cases held
  · rename_i absent
    cases absent.symm.trans held

theorem closed_keeps {version : Version} {c' : Client L} {id : Nat} {listenerThrows : Bool}
    (own : OwnEntry c (.closed id listenerThrows)) (delivered : c.closed version id listenerThrows = some c')
    {uri : String} {other : Nat} (different : other ≠ id) (entry : c.openSockets.lookup uri = some other) :
    c'.openSockets.lookup uri = some other := by
  unfold Client.closed at delivered
  cases at_id : c.socket? id with
  | none => simp [at_id] at delivered
  | some s =>
    simp only [at_id] at delivered
    split at delivered
    · cases delivered
    · rw [← Option.some.inj delivered]
      cases version with
      | v2 => exact entry
      | v1 =>
        change (V1.onclose _ s.modeluri listenerThrows).openSockets.lookup uri = _
        unfold V1.onclose
        cases listenerThrows with
        | true => exact entry
        | false =>
          rw [if_neg (by decide), lookup_delete]
          split
          · rename_i same
            rcases own with impossible | own
            · cases impossible
            · exact absurd (own s other at_id (same ▸ entry)) different
          · exact entry

end Client

/-- What a subscribe does when there is an entry already: no new socket, the map as it was, and an error. -/
structure Refused (version : Version) (c : Client L) (modeluri : String) (listener : Option L)
    (errorWhenUnsuccessful : Bool) : Prop where
  sockets : (version.subscribe c modeluri listener errorWhenUnsuccessful).1.sockets = c.sockets
  openSockets : (version.subscribe c modeluri listener errorWhenUnsuccessful).1.openSockets = c.openSockets
  thrown : (version.subscribe c modeluri listener errorWhenUnsuccessful).2 =
    .error (if version = .v1 ∧ listener.isNone then noListener modeluri else alreadySubscribed modeluri)

theorem refused_of_careful {version : Version} {c : Client L} {modeluri : String} {listener : Option L}
    {errorWhenUnsuccessful : Bool} (careful : Careful version c (.subscribe modeluri listener errorWhenUnsuccessful))
    (taken : (c.openSockets.lookup modeluri).isSome) : Refused version c modeluri listener errorWhenUnsuccessful := by
  have present : c.openSockets.lookup modeluri ≠ none := by
    intro free
    rw [free] at taken
    cases taken
  cases version with
  | v1 =>
    cases listener with
    | none => exact ⟨rfl, rfl, rfl⟩
    | some l =>
      have strict : errorWhenUnsuccessful = true := by simpa [Careful, present] using careful
      subst strict
      have opened := Client.openUnlessSubscribed_taken taken (some l)
      constructor <;> simp [Version.subscribe, V1.subscribe, opened, Client.warn]
  | v2 =>
    have strict : errorWhenUnsuccessful = true := by simpa [Careful, present] using careful
    subst strict
    have opened := Client.openUnlessSubscribed_taken taken listener
    constructor <;> simp [Version.subscribe, V2.subscribe, opened, Client.warn]

/-- In every run in which no subscribe replaces an entry and no close event deletes the entry of another
    socket, there is one live socket for a model at most, and none after unsubscribe. -/
theorem one_socket_per_model {version : Version} {as : List (Action L)} {c : Client L}
    (run : Runs.Reached (system L version) (Careful version) as c) :
    (∀ modeluri listener errorWhenUnsuccessful, Careful version c (.subscribe modeluri listener errorWhenUnsuccessful) →
      (c.openSockets.lookup modeluri).isSome → Refused version c modeluri listener errorWhenUnsuccessful) ∧
    (∀ id id' s s', c.socket? id = some s → c.socket? id' = some s' → s.Live → s'.Live →
      s.modeluri = s'.modeluri → id = id') ∧
    ∀ modeluri id s, (c.unsubscribe modeluri).1.socket? id = some s → s.modeluri = modeluri → ¬ s.Live := by
  have tracked := tracked_of_run run
  refine ⟨fun _ _ _ careful taken => refused_of_careful careful taken, ?_, ?_⟩
  · intro id id' s s' at_id at_id' live live' same
    exact tracked.unique at_id at_id' live live' same
  · intro modeluri id s at_id here
    exact tracked.unsubscribed modeluri at_id here

theorem one_socket_per_model_refused :
    ∃ c : Client String, Runs.Reached (system String .v2) (Careful .v2)
      [.subscribe "Coffee.ecore" (some "listener") false, .subscribe "Coffee.ecore" (some "listener") true] c ∧
    Refused .v2 c "Coffee.ecore" (some "listener") true := by
  have run : Runs.Reached (system String .v2) (Careful .v2)
      [.subscribe "Coffee.ecore" (some "listener") false, .subscribe "Coffee.ecore" (some "listener") true] _ :=
    .cons (.inr (.inl rfl)) rfl (.cons (.inl rfl) rfl (.nil _))
  exact ⟨_, run, (one_socket_per_model run).1 "Coffee.ecore" (some "listener") true (.inl rfl) rfl⟩

def OpensSecond (version : Version) : Prop :=
  ∃ c : Client String, Runs.Reached (system String version) (fun _ _ => True)
    [.subscribe "Coffee.ecore" (some "first") false, .subscribe "Coffee.ecore" (some "second") false] c ∧
  ∃ s s', c.socket? 0 = some s ∧ c.socket? 1 = some s' ∧ s.Live ∧ s'.Live ∧ s.modeluri = s'.modeluri ∧
    (c.unsubscribe s.modeluri).1.socket? 0 = some s

theorem second_subscribe_opens : OpensSecond .v1 ∧ OpensSecond .v2 := by
  constructor
  · exact ⟨_, .cons trivial rfl (.cons trivial rfl (.nil _)), _, _, rfl, rfl, by decide, by decide, rfl, rfl⟩
  · exact ⟨_, .cons trivial rfl (.cons trivial rfl (.nil _)), _, _, rfl, rfl, by decide, by decide, rfl, rfl⟩

end ModelServer.Sockets
