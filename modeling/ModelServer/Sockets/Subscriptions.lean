import ModelServer.Library.Runs
import ModelServer.Sockets.Client

namespace ModelServer.Sockets

variable {L : Type}

inductive Version
  | v1
  | v2
  deriving DecidableEq, Repr

def Version.subscribe : Version → Client L → String → Option L → Bool → Client L × Except String Unit
  | .v1 => V1.subscribe
  | .v2 => V2.subscribe

def Version.onclose : Version → Client L → String → Bool → Client L
  | .v1 => V1.onclose
  | .v2 => V2.onclose

/-- The calls of a client, and the delivery of the close event of a socket. -/
inductive Action (L : Type)
  | subscribe (modeluri : String) (listener : Option L) (errorWhenUnsuccessful : Bool)
  | unsubscribe (modeluri : String)
  | send (modeluri message : String)
  | closed (socket : Nat) (listenerThrows : Bool)

def Client.closed (version : Version) (c : Client L) (id : Nat) (listenerThrows : Bool) : Option (Client L) :=
  match c.socket? id with
  | some s =>
    if s.closeDelivered then none
    else some (version.onclose (c.update id fun s => { s with closeDelivered := true }) s.modeluri listenerThrows)
  | none => none

def step (version : Version) (c : Client L) : Action L → Option (Client L)
  | .subscribe modeluri listener errorWhenUnsuccessful =>
    some (version.subscribe c modeluri listener errorWhenUnsuccessful).1
  | .unsubscribe modeluri => some (c.unsubscribe modeluri).1
  | .send modeluri message => some (c.send modeluri message).1
  | .closed id listenerThrows => c.closed version id listenerThrows

def system (L : Type) (version : Version) : Runs.System (Client L) (Action L) where
  init := .start
  step := step version

namespace Client

theorem socket_update (c : Client L) (id i : Nat) (f : Socket L → Socket L) :
    (c.update id f).socket? i = if i = id then (c.socket? i).map f else c.socket? i := by
  unfold socket? update
  rw [List.getElem?_modify]
  by_cases same : i = id
  · subst same
    cases c.sockets[i]? <;> simp
  · cases c.sockets[i]? <;> simp [same, Ne.symm same]

theorem socket_doSubscribe (c : Client L) (listener : Option L) (modeluri : String) (i : Nat) :
    (c.doSubscribe listener modeluri).socket? i =
      if i = c.sockets.length then some { modeluri, listener } else c.socket? i := by
  unfold socket? doSubscribe
  rw [List.getElem?_append]
  by_cases old : i < c.sockets.length
  · rw [if_pos old, if_neg (by omega)]
  · rw [if_neg old]
    by_cases new : i = c.sockets.length
    · simp [new]
    · rw [if_neg new, List.getElem?_eq_none (by simp; omega), List.getElem?_eq_none (by omega)]

theorem lookup_delete (c : Client L) (modeluri uri : String) :
    (c.delete modeluri).openSockets.lookup uri = if uri = modeluri then none else c.openSockets.lookup uri := by
  unfold delete
  by_cases same : uri = modeluri
  · rw [if_pos same, same]
    exact AList.lookup_erase _ _
  · rw [if_neg same]
    exact AList.lookup_erase_ne same

theorem lookup_doSubscribe (c : Client L) (listener : Option L) (modeluri uri : String) :
    (c.doSubscribe listener modeluri).openSockets.lookup uri =
      if uri = modeluri then some c.sockets.length else c.openSockets.lookup uri := by
  unfold doSubscribe
  by_cases same : uri = modeluri
  · rw [if_pos same, same]
    exact AList.lookup_insert _
  · rw [if_neg same]
    exact AList.lookup_insert_ne same

def Entries (P : Socket L → Prop) (c : Client L) : Prop :=
  ∀ uri id, c.openSockets.lookup uri = some id → ∃ s, c.socket? id = some s ∧ s.modeluri = uri ∧ P s

section

variable {P : Socket L → Prop} {c : Client L}

theorem Entries.start : Entries P .start := by
  intro uri id found
  simp [Client.start] at found

theorem Entries.doSubscribe (e : Entries P c) {listener : Option L} {modeluri : String}
    (new : P { modeluri, listener }) : Entries P (c.doSubscribe listener modeluri) := by
  intro uri id found
  rw [lookup_doSubscribe] at found
  split at found
  · rename_i same
    rw [← Option.some.inj found, socket_doSubscribe, if_pos rfl]
    exact ⟨_, rfl, same.symm, new⟩
  · rcases e uri id found with ⟨s, at_id, here⟩
    have old : id < c.sockets.length := (List.getElem?_eq_some_iff.mp at_id).1
    rw [socket_doSubscribe, if_neg (by omega)]
    exact ⟨s, at_id, here⟩

theorem Entries.update (e : Entries P c) {id : Nat} {f : Socket L → Socket L} (same : ∀ s, (f s).modeluri = s.modeluri)
    (kept : ∀ uri s, c.openSockets.lookup uri = some id → P s → P (f s)) : Entries P (c.update id f) := by
  intro uri i found
  rcases e uri i found with ⟨s, at_i, here, property⟩
  rw [socket_update, at_i]
  split
  · rename_i touched
    exact ⟨f s, rfl, (same s).trans here, kept uri s (touched ▸ found) property⟩
  · exact ⟨s, rfl, here, property⟩

theorem Entries.delete (e : Entries P c) (modeluri : String) : Entries P (c.delete modeluri) := by
  intro uri id found
  rw [lookup_delete] at found
  split at found
  · cases found
  · exact e uri id found

end

/-- Every entry of the map is a socket of its model, and every live socket is the entry of its model. -/
structure Tracked (c : Client L) : Prop where
  entry : Entries (fun _ => True) c
  live : ∀ id s, c.socket? id = some s → s.Live → c.openSockets.lookup s.modeluri = some id

theorem Tracked.start : Tracked (.start : Client L) where
  entry := .start
  live id s found := by simp [Client.start, socket?] at found

variable {c : Client L}

theorem Tracked.warn (t : Tracked c) (message : String) : Tracked (c.warn message) := ⟨t.entry, t.live⟩

theorem Tracked.doSubscribe (t : Tracked c) {modeluri : String} (free : c.openSockets.lookup modeluri = none)
    (listener : Option L) : Tracked (c.doSubscribe listener modeluri) := by
  constructor
  · exact t.entry.doSubscribe trivial
  · intro id s at_id live
    rw [socket_doSubscribe] at at_id
    rw [lookup_doSubscribe]
    split at at_id
    · rename_i new
      rw [← Option.some.inj at_id, if_pos rfl, new]
    · have held := t.live id s at_id live
      by_cases same : s.modeluri = modeluri
      · rw [same, free] at held
        cases held
      · rw [if_neg same]
        exact held

theorem Tracked.update (t : Tracked c) {id : Nat} {f : Socket L → Socket L} (same : ∀ s, (f s).modeluri = s.modeluri)
    (dead : ∀ s, (f s).Live → s.Live) : Tracked (c.update id f) := by
  constructor
  · exact t.entry.update same fun _ _ _ _ => trivial
  · intro i s at_i live
    rw [socket_update] at at_i
    split at at_i
    · cases before : c.socket? i with
      | none => simp [before] at at_i
      | some s' =>
        rw [before] at at_i
        have changed : f s' = s := Option.some.inj at_i
        subst changed
        rw [same]
        exact t.live i s' before (dead s' live)
    · exact t.live i s at_i live

theorem Tracked.delete (t : Tracked c) {modeluri : String}
    (ended : ∀ id s, c.openSockets.lookup modeluri = some id → c.socket? id = some s → ¬ s.Live) :
    Tracked (c.delete modeluri) := by
  constructor
  · exact t.entry.delete modeluri
  · intro id s at_id live
    have held := t.live id s at_id live
    rw [lookup_delete]
    split
    · rename_i same
      rw [same] at held
      exact absurd live (ended id s held at_id)
    · exact held

theorem Tracked.send (t : Tracked c) (modeluri message : String) : Tracked (c.send modeluri message).1 := by
  unfold Client.send
  split
  · exact t.update (fun _ => rfl) fun _ live => live
  · exact t

theorem Tracked.unsubscribe (t : Tracked c) (modeluri : String) : Tracked (c.unsubscribe modeluri).1 := by
  unfold Client.unsubscribe
  split
  · rename_i openSocket found
    have closed : Tracked (c.close openSocket) := t.update (fun _ => rfl) fun _ live => absurd live.1 nofun
    apply closed.delete
    intro id s held at_id live
    cases found.symm.trans held
    unfold Client.close at at_id
    rw [socket_update, if_pos rfl] at at_id
    cases before : c.socket? openSocket with
    | none => simp [before] at at_id
    | some s' =>
      rw [before] at at_id
      rw [← Option.some.inj at_id] at live
      exact absurd live.1 nofun
  · exact t

end Client

/-- Every subscribe asks for an error when there is an entry. -/
def Strict (_ : Client L) : Action L → Prop
  | .subscribe _ _ errorWhenUnsuccessful => errorWhenUnsuccessful = true
  | _ => True

/-- No close event deletes the entry of another socket. -/
def OwnEntry (c : Client L) : Action L → Prop
  | .closed id listenerThrows => listenerThrows = true ∨
    ∀ s other, c.socket? id = some s → c.openSockets.lookup s.modeluri = some other → other = id
  | _ => True

/-- No subscribe replaces an entry, and where close events delete entries they delete their own. -/
def Careful (version : Version) (c : Client L) : Action L → Prop
  | .subscribe modeluri listener errorWhenUnsuccessful =>
    errorWhenUnsuccessful = true ∨ c.openSockets.lookup modeluri = none ∨ (version = .v1 ∧ listener = none)
  | .closed id listenerThrows => version = .v2 ∨ OwnEntry c (.closed id listenerThrows)
  | _ => True

namespace Client

variable {c c' : Client L}

theorem isSocketOpen_eq (c : Client L) (modeluri : String) :
    c.isSocketOpen modeluri = (c.openSockets.lookup modeluri).isSome := rfl

theorem openUnlessSubscribed_taken {modeluri : String} (taken : (c.openSockets.lookup modeluri).isSome)
    (listener : Option L) : openUnlessSubscribed c modeluri listener true =
      (c.warn (alreadySubscribed modeluri), .error (alreadySubscribed modeluri)) := by
  unfold openUnlessSubscribed
  rw [isSocketOpen_eq, taken]
  rfl

theorem openUnlessSubscribed_free {modeluri : String} (free : c.openSockets.lookup modeluri = none)
    (listener : Option L) (errorWhenUnsuccessful : Bool) :
    openUnlessSubscribed c modeluri listener errorWhenUnsuccessful = (c.doSubscribe listener modeluri, .ok ()) := by
  unfold openUnlessSubscribed
  rw [isSocketOpen_eq, free]
  rfl

theorem Tracked.openUnlessSubscribed (t : Tracked c) {modeluri : String} {listener : Option L}
    {errorWhenUnsuccessful : Bool}
    (careful : errorWhenUnsuccessful = true ∨ c.openSockets.lookup modeluri = none) :
    Tracked (openUnlessSubscribed c modeluri listener errorWhenUnsuccessful).1 := by
  cases found : c.openSockets.lookup modeluri with
  | none =>
    rw [openUnlessSubscribed_free found]
    exact t.doSubscribe found listener
  | some id =>
    rcases careful with rfl | free
    · rw [openUnlessSubscribed_taken (by rw [found]; rfl)]
      exact t.warn _
    · cases found.symm.trans free

theorem Tracked.subscribe (t : Tracked c) {version : Version} {modeluri : String} {listener : Option L}
    {errorWhenUnsuccessful : Bool} (careful : Careful version c (.subscribe modeluri listener errorWhenUnsuccessful)) :
    Tracked (version.subscribe c modeluri listener errorWhenUnsuccessful).1 := by
  cases version with
  | v1 =>
    change Tracked (V1.subscribe c modeluri listener errorWhenUnsuccessful).1
    unfold V1.subscribe
    cases listener with
    | none => exact t
    | some l => exact t.openUnlessSubscribed (by simpa [Careful] using careful)
  | v2 => exact t.openUnlessSubscribed (by simpa [Careful] using careful)

theorem Tracked.deliver (t : Tracked c) (id : Nat) :
    Tracked (c.update id fun s => { s with closeDelivered := true }) :=
  t.update (fun _ => rfl) fun _ live => absurd live.2 nofun

theorem Tracked.closed (t : Tracked c) {version : Version} {id : Nat} {listenerThrows : Bool}
    (careful : Careful version c (.closed id listenerThrows)) (delivered : c.closed version id listenerThrows = some c') :
    Tracked c' := by
  unfold Client.closed at delivered
  cases at_id : c.socket? id with
  | none => simp [at_id] at delivered
  | some s =>
    simp only [at_id] at delivered
    split at delivered
    · cases delivered
    · rw [← Option.some.inj delivered]
      have marked := t.deliver id
      cases version with
      | v2 => exact marked
      | v1 =>
        change Tracked (V1.onclose _ s.modeluri listenerThrows)
        unfold V1.onclose
        cases listenerThrows with
        | true => exact marked
        | false =>
          apply marked.delete
          intro id' s' held at_id' live
          have own : id' = id := by
            rcases careful with impossible | impossible | own
            · cases impossible
            · cases impossible
            · exact own s id' at_id held
          rw [own, socket_update, if_pos rfl, at_id] at at_id'
          rw [← Option.some.inj at_id'] at live
          exact absurd live.2 nofun

theorem Tracked.step (t : Tracked c) {version : Version} {a : Action L} (careful : Careful version c a)
    (stepped : Sockets.step version c a = some c') : Tracked c' := by
  cases a with
  | subscribe modeluri listener errorWhenUnsuccessful =>
    rw [← Option.some.inj stepped]
    exact t.subscribe careful
  | unsubscribe modeluri =>
    rw [← Option.some.inj stepped]
    exact t.unsubscribe modeluri
  | send modeluri message =>
    rw [← Option.some.inj stepped]
    exact t.send modeluri message
  | closed id listenerThrows => exact t.closed careful stepped

end Client

theorem tracked_of_run {version : Version} {as : List (Action L)} {c : Client L}
    (run : Runs.Reached (system L version) (Careful version) as c) : c.Tracked :=
  run.invariant (fun _ _ _ t careful stepped => t.step careful stepped) .start

end ModelServer.Sockets
