import ModelServer.Sockets.Theia

namespace ModelServer.Sockets

variable {F : Type}

namespace Client

theorem openUnlessSubscribed_outcome (c : Client F) (modeluri : String) (listener : Option F)
    (errorWhenUnsuccessful : Bool) {c' : Client F}
    (result : (openUnlessSubscribed c modeluri listener errorWhenUnsuccessful).1 = c') :
    c'.sockets = c.sockets ∧ c'.openSockets = c.openSockets ∨
    c'.sockets = c.sockets ++ [({ modeluri, listener } : Socket F)] ∧
      c'.openSockets = c.openSockets.insert modeluri c.sockets.length ∧
      (errorWhenUnsuccessful = false ∨ c.openSockets.lookup modeluri = none) := by
  subst result
  cases found : c.openSockets.lookup modeluri with
  | none =>
    rw [openUnlessSubscribed_free found]
    exact .inr ⟨rfl, rfl, .inr rfl⟩
  | some id =>
    have taken : c.isSocketOpen modeluri = true := by rw [isSocketOpen_eq, found]; rfl
    unfold openUnlessSubscribed
    rw [if_pos taken]
    cases errorWhenUnsuccessful with
    | true => exact .inl ⟨rfl, rfl⟩
    | false => exact .inr ⟨rfl, rfl, .inl rfl⟩

theorem socket_foldl_close {entries : List ((_ : String) × Nat)} {id : Nat} (absent : ∀ entry ∈ entries, entry.2 ≠ id) :
    ∀ c : Client F, (entries.foldl (fun c entry => c.close entry.2) c).socket? id = c.socket? id := by
  induction entries with
  | nil => exact fun _ => rfl
  | cons entry rest ih =>
    intro c
    rw [List.foldl_cons, ih (fun e member => absent e (List.mem_cons_of_mem _ member))]
    unfold Client.close
    rw [socket_update, if_neg (Ne.symm (absent entry (List.mem_cons_self ..)))]

def SameListeners (c c' : Client F) : Prop :=
  c'.sockets.length = c.sockets.length ∧
  ∀ id s', c'.socket? id = some s' → ∃ s, c.socket? id = some s ∧ s'.listener = s.listener

theorem SameListeners.refl (c : Client F) : SameListeners c c := ⟨rfl, fun _ s at_id => ⟨s, at_id, rfl⟩⟩

theorem SameListeners.trans {c c' c'' : Client F} (first : SameListeners c c') (second : SameListeners c' c'') :
    SameListeners c c'' := by
  refine ⟨second.1.trans first.1, ?_⟩
  intro id s'' at_id
  rcases second.2 id s'' at_id with ⟨s', at_id', same'⟩
  rcases first.2 id s' at_id' with ⟨s, at_id'', same⟩
  exact ⟨s, at_id'', same'.trans same⟩

theorem sameListeners_update (c : Client F) (id : Nat) {f : Socket F → Socket F} (same : ∀ s, (f s).listener = s.listener) :
    SameListeners c (c.update id f) := by
  constructor
  · simp [Client.update]
  · intro i s' at_i
    rw [socket_update] at at_i
    split at at_i
    · cases before : c.socket? i with
      | none => simp [before] at at_i
      | some s =>
        rw [before] at at_i
        rw [← Option.some.inj at_i]
        exact ⟨s, rfl, same s⟩
    · exact ⟨s', at_i, rfl⟩

theorem sameListeners_foldl_close (entries : List ((_ : String) × Nat)) :
    ∀ c : Client F, SameListeners c (entries.foldl (fun c entry => c.close entry.2) c) := by
  induction entries with
  | nil => exact .refl
  | cons entry rest ih =>
    intro c
    have closed : SameListeners c (c.close entry.2) := sameListeners_update c entry.2 fun _ => rfl
    exact closed.trans (ih _)

theorem sameListeners_closed {c c' : Client F} {id : Nat} {listenerThrows : Bool}
    (delivered : c.closed .v2 id listenerThrows = some c') : SameListeners c c' := by
  unfold Client.closed at delivered
  split at delivered
  · split at delivered
    · cases delivered
    · rw [← Option.some.inj delivered]
      exact sameListeners_update c id fun _ => rfl
  · cases delivered

end Client

/-- The one service instance behind all frontend connections. The requesters of the sockets, by number,
    are recorded for the statements only. -/
structure Service (F : Type) where
  backend : Backend F
  connected : List F
  gone : List F
  requesters : List F
  inbox : List (F × Nat × String)

inductive FrontendAction (F : Type)
  | connect (frontend : F)
  | disconnect (frontend : F)
  | subscribe (frontend : F) (modeluri : String) (listener : ListenerArgument F) (options : OptionsArgument F)
  | selfSubscribe (frontend : F) (modeluri : String) (options : OptionsArgument F)
  | message (socket : Nat) (text : String)
  | closed (socket : Nat) (listenerThrows : Bool)

namespace Service

def start : Service F := ⟨.start, [], [], [], []⟩

def socket? (sv : Service F) (id : Nat) : Option (Socket F) := sv.backend.client.socket? id

def entry? (sv : Service F) (modeluri : String) : Option Nat := sv.backend.client.openSockets.lookup modeluri

variable [DecidableEq F]

/-- The factory of the connection handler, for a new connection. -/
def connect (sv : Service F) (frontend : F) : Option (Service F) :=
  if frontend ∈ sv.connected ∨ frontend ∈ sv.gone then none
  else some { sv with backend := sv.backend.setClient (some frontend), connected := frontend :: sv.connected }

/-- The handler that the factory registers for the end of the connection. -/
def disconnect (sv : Service F) (frontend : F) : Option (Service F) :=
  if frontend ∈ sv.connected then
    some { sv with
      backend := sv.backend.dispose
      connected := sv.connected.filter (· ≠ frontend)
      gone := frontend :: sv.gone }
  else none

def request (sv : Service F) (frontend : F) (backend : Backend F) : Option (Service F) :=
  if frontend ∈ sv.connected then
    some { sv with
      backend
      requesters := if sv.backend.client.sockets.length < backend.client.sockets.length
        then sv.requesters ++ [frontend] else sv.requesters }
  else none

def message (sv : Service F) (id : Nat) (text : String) : Option (Service F) :=
  match sv.socket? id with
  | some s =>
    if s.closeDelivered then none
    else match s.listener with
      | some client => some { sv with inbox := sv.inbox ++ [(client, id, text)] }
      | none => some sv
  | none => none

def closed (sv : Service F) (id : Nat) (listenerThrows : Bool) : Option (Service F) :=
  (sv.backend.closed id listenerThrows).map fun backend => { sv with backend }

end Service

def serviceStep [DecidableEq F] (sv : Service F) : FrontendAction F → Option (Service F)
  | .connect frontend => sv.connect frontend
  | .disconnect frontend => sv.disconnect frontend
  | .subscribe frontend modeluri listener options =>
    sv.request frontend (sv.backend.subscribe modeluri listener options).1
  | .selfSubscribe frontend modeluri options => sv.request frontend (sv.backend.selfSubscribe modeluri options).1
  | .message id text => sv.message id text
  | .closed id listenerThrows => sv.closed id listenerThrows

def serviceSystem (F : Type) [DecidableEq F] : Runs.System (Service F) (FrontendAction F) where
  init := .start
  step := serviceStep

def NoListener (_ : Service F) : FrontendAction F → Prop
  | .subscribe _ _ listener options => (∀ l, listener ≠ .listener l) ∧ options.value.listener = none
  | .selfSubscribe _ _ options => options.value.listener = none
  | _ => True

/-- The frontend that connected last asks for a model of which no other frontend has the entry, or asks
    for an error when there is one. -/
def OwnRequest (sv : Service F) (frontend : F) (modeluri : String) (errorWhenUnsuccessful : Bool) : Prop :=
  sv.backend.subscriptionClient = some frontend ∧
  (errorWhenUnsuccessful = true ∨
    ∀ id other, sv.entry? modeluri = some id → sv.requesters[id]? = some other → other = frontend)

/-- Requests are the requester's own, and a frontend leaves when no other connected frontend has a live
    socket in the map. -/
def Exclusive (sv : Service F) : FrontendAction F → Prop
  | .subscribe frontend modeluri _ options => OwnRequest sv frontend modeluri options.value.errorWhenUnsuccessful
  | .selfSubscribe frontend modeluri options => OwnRequest sv frontend modeluri options.value.errorWhenUnsuccessful
  | .disconnect frontend => ∀ modeluri id s other, sv.entry? modeluri = some id → sv.socket? id = some s →
    sv.requesters[id]? = some other → other ≠ frontend → other ∈ sv.connected → ¬ s.Live
  | _ => True

structure Service.Owned (sv : Service F) : Prop where
  length : sv.requesters.length = sv.backend.client.sockets.length
  listener : ∀ id s, sv.socket? id = some s → sv.requesters[id]? = s.listener
  inbox : ∀ client id text, (client, id, text) ∈ sv.inbox → sv.requesters[id]? = some client

namespace Service

variable {sv sv' : Service F}

theorem Owned.start : Owned (.start : Service F) where
  length := rfl
  listener id s at_id := by simp [Service.start, Service.socket?, Backend.start, Client.start, Client.socket?] at at_id
  inbox client id text member := by simp [Service.start] at member

theorem Owned.sameListeners (o : Owned sv) {backend : Backend F} {connected gone : List F}
    (same : Client.SameListeners sv.backend.client backend.client) :
    Owned ({ sv with backend, connected, gone } : Service F) where
  length := o.length.trans same.1.symm
  listener id s' at_id := by
    rcases same.2 id s' at_id with ⟨s, at_id', kept⟩
    rw [kept]
    exact o.listener id s at_id'
  inbox := o.inbox

theorem Owned.request [DecidableEq F] (o : Owned sv) {frontend : F} {modeluri : String} {listener : Option F}
    {errorWhenUnsuccessful : Bool} (own : listener = some frontend) {backend : Backend F}
    (result : (openUnlessSubscribed sv.backend.client modeluri listener errorWhenUnsuccessful).1 = backend.client)
    (stepped : sv.request frontend backend = some sv') : Owned sv' := by
  unfold Service.request at stepped
  split at stepped
  · rw [← Option.some.inj stepped]
    rcases Client.openUnlessSubscribed_outcome _ _ _ _ result with ⟨sockets, -⟩ | ⟨sockets, -⟩
    · rw [if_neg (by rw [sockets]; omega)]
      apply o.sameListeners
      refine ⟨by rw [sockets], fun id s at_id => ⟨s, ?_, rfl⟩⟩
      unfold Client.socket? at at_id ⊢
      rw [← sockets, at_id]
    · rw [if_pos (by rw [sockets, List.length_append]; exact Nat.lt_add_one _)]
      have length := o.length
      refine ⟨by simp [sockets, length], ?_, ?_⟩
      · intro id s at_id
        change backend.client.sockets[id]? = some s at at_id
        rw [sockets, List.getElem?_append] at at_id
        rw [List.getElem?_append, length]
        split at at_id
        · rename_i old
          rw [if_pos old]
          exact o.listener id s at_id
        · rename_i new
          rw [if_neg new]
          cases place : id - sv.backend.client.sockets.length with
          | zero =>
            rw [place] at at_id
            cases at_id
            exact own.symm
          | succ n =>
            rw [place] at at_id
            cases at_id
      · intro client id text member
        have before := o.inbox client id text member
        rw [List.getElem?_append_left (List.getElem?_eq_some_iff.mp before).1]
        exact before
  · cases stepped

theorem Owned.message (o : Owned sv) {id : Nat} {text : String} (stepped : sv.message id text = some sv') : Owned sv' := by
  unfold Service.message at stepped
  split at stepped
  · rename_i s at_id
    split at stepped
    · cases stepped
    · split at stepped
      · rename_i client heard
        rw [← Option.some.inj stepped]
        refine ⟨o.length, o.listener, ?_⟩
        intro client' id' text' member
        rcases List.mem_append.mp member with before | new
        · exact o.inbox client' id' text' before
        · cases List.mem_singleton.mp new
          exact (o.listener id s at_id).trans heard
      · rw [← Option.some.inj stepped]
        exact o
  · cases stepped

theorem chooseListener_own {b : Backend F} {frontend : F} {listener : ListenerArgument F} {options : SubscriptionOptions F}
    (current : b.subscriptionClient = some frontend) (noArgument : ∀ l, listener ≠ .listener l) (empty : options.listener = none) :
    b.chooseListener listener options = some frontend := by
  cases listener with
  | undefined => simp [Backend.chooseListener, empty, current]
  | cancellationToken => simp [Backend.chooseListener, empty, current]
  | listener l => exact absurd rfl (noArgument l)

theorem Owned.step [DecidableEq F] (o : Owned sv) {a : FrontendAction F} (meets : NoListener sv a ∧ Exclusive sv a)
    (stepped : serviceStep sv a = some sv') : Owned sv' := by
  cases a with
  | connect frontend =>
    change sv.connect frontend = some sv' at stepped
    unfold Service.connect at stepped
    split at stepped
    · cases stepped
    · rw [← Option.some.inj stepped]
      exact o.sameListeners (.refl _)
  | disconnect frontend =>
    change sv.disconnect frontend = some sv' at stepped
    unfold Service.disconnect at stepped
    split at stepped
    · rw [← Option.some.inj stepped]
      exact o.sameListeners (Client.sameListeners_foldl_close _ _)
    · cases stepped
  | subscribe frontend modeluri listener options =>
    have own := chooseListener_own meets.2.1 meets.1.1 meets.1.2
    exact o.request own rfl stepped
  | selfSubscribe frontend modeluri options =>
    have own : sv.backend.chooseListener .undefined options.value = some frontend :=
      chooseListener_own meets.2.1 (fun _ => nofun) meets.1
    exact o.request own rfl stepped
  | message id text => exact o.message stepped
  | closed id listenerThrows =>
    change sv.closed id listenerThrows = some sv' at stepped
    unfold Service.closed Backend.closed at stepped
    rw [Option.map_map] at stepped
    rcases Option.map_eq_some_iff.mp stepped with ⟨client, delivered, same⟩
    rw [← same]
    exact o.sameListeners (Client.sameListeners_closed delivered)

theorem request_keeps [DecidableEq F] {frontend other : F} {modeluri uri : String} {listener : Option F}
    {errorWhenUnsuccessful : Bool} {backend : Backend F} {id : Nat}
    (own : OwnRequest sv frontend modeluri errorWhenUnsuccessful)
    (result : (openUnlessSubscribed sv.backend.client modeluri listener errorWhenUnsuccessful).1 = backend.client)
    (stepped : sv.request frontend backend = some sv') (entry : sv.entry? uri = some id)
    (requester : sv.requesters[id]? = some other) (different : other ≠ frontend) : sv'.entry? uri = some id := by
  unfold Service.request at stepped
  split at stepped
  · rw [← Option.some.inj stepped]
    change backend.client.openSockets.lookup uri = some id
    rcases Client.openUnlessSubscribed_outcome _ _ _ _ result with ⟨-, same⟩ | ⟨-, inserted, free⟩
    · rw [same]
      exact entry
    · rw [inserted]
      by_cases here : uri = modeluri
      · subst here
        rcases free with quiet | absent
        · rcases own.2 with strict | mine
          · rw [strict] at quiet
            cases quiet
          · exact absurd (mine id other entry requester) different
        · cases absent.symm.trans entry
      · rw [AList.lookup_insert_ne here]
        exact entry
  · cases stepped

theorem disconnect_keeps [DecidableEq F] {frontend other : F} {id : Nat} {s : Socket F}
    (exclusive : Exclusive sv (.disconnect frontend)) (stepped : sv.disconnect frontend = some sv')
    (at_id : sv.socket? id = some s) (live : s.Live) (requester : sv.requesters[id]? = some other)
    (different : other ≠ frontend) (connected : other ∈ sv.connected) : sv'.socket? id = some s := by
  unfold Service.disconnect at stepped
  split at stepped
  · rw [← Option.some.inj stepped]
    change Client.socket? (sv.backend.client.openSockets.entries.foldl (fun c entry => c.close entry.2)
      sv.backend.client) id = some s
    rw [Client.socket_foldl_close]
    · exact at_id
    · intro entry member same
      subst same
      have held : sv.entry? entry.1 = some entry.2 := AList.mem_lookup_iff.mpr member
      exact exclusive entry.1 entry.2 s other held at_id requester different connected live
  · cases stepped

structure Separate [DecidableEq F] (sv : Service F) : Prop where
  delivered : ∀ client id text, (client, id, text) ∈ sv.inbox → sv.requesters[id]? = some client
  notified : ∀ id text sv', serviceStep sv (.message id text) = some sv' →
    ∃ requester, sv.requesters[id]? = some requester ∧ sv'.inbox = sv.inbox ++ [(requester, id, text)]
  disconnected : ∀ frontend sv', Exclusive sv (.disconnect frontend) →
    serviceStep sv (.disconnect frontend) = some sv' → ∀ id s other, sv.socket? id = some s → s.Live →
      sv.requesters[id]? = some other → other ≠ frontend → other ∈ sv.connected → sv'.socket? id = some s
  subscribed : ∀ frontend modeluri listener options sv', Exclusive sv (.subscribe frontend modeluri listener options) →
    serviceStep sv (.subscribe frontend modeluri listener options) = some sv' → ∀ uri id other,
      sv.entry? uri = some id → sv.requesters[id]? = some other → other ≠ frontend → sv'.entry? uri = some id
  selfSubscribed : ∀ frontend modeluri options sv', Exclusive sv (.selfSubscribe frontend modeluri options) →
    serviceStep sv (.selfSubscribe frontend modeluri options) = some sv' → ∀ uri id other,
      sv.entry? uri = some id → sv.requesters[id]? = some other → other ≠ frontend → sv'.entry? uri = some id

theorem Owned.notified [DecidableEq F] (o : Owned sv) {id : Nat} {text : String}
    (stepped : sv.message id text = some sv') :
    ∃ requester, sv.requesters[id]? = some requester ∧ sv'.inbox = sv.inbox ++ [(requester, id, text)] := by
  unfold Service.message at stepped
  split at stepped
  · rename_i s at_id
    have requested := o.listener id s at_id
    have bound : id < sv.requesters.length := by
      rw [o.length]
      exact (List.getElem?_eq_some_iff.mp at_id).1
    split at stepped
    · cases stepped
    · split at stepped
      · rename_i client heard
        rw [← Option.some.inj stepped]
        exact ⟨client, requested.trans heard, rfl⟩
      · rename_i deaf
        rw [deaf, List.getElem?_eq_none_iff] at requested
        omega
  · cases stepped

theorem Owned.separate [DecidableEq F] (o : Owned sv) : Separate sv where
  delivered := o.inbox
  notified _ _ _ stepped := o.notified stepped
  disconnected _ _ exclusive stepped _ _ _ at_id live requester different connected :=
    disconnect_keeps exclusive stepped at_id live requester different connected
  subscribed _ _ _ _ _ exclusive stepped _ _ _ entry requester different :=
    request_keeps exclusive rfl stepped entry requester different
  selfSubscribed _ _ _ _ exclusive stepped _ _ _ entry requester different :=
    request_keeps exclusive rfl stepped entry requester different

end Service

/-- In every run in which a request comes from the frontend that connected last and concerns no entry of
    another one, and a frontend leaves only when no other connected one has a live socket in the map,
    the subscriptions of the frontends stay separate. -/
theorem frontends_separate [DecidableEq F] {as : List (FrontendAction F)} {sv : Service F}
    (run : Runs.Reached (serviceSystem F) (fun sv a => NoListener sv a ∧ Exclusive sv a) as sv) : sv.Separate :=
  Service.Owned.separate (run.invariant (fun _ _ _ o meets stepped => o.step meets stepped) .start)

theorem frontends_separate_two :
    ∃ sv : Service String, Runs.Reached (serviceSystem String) (fun sv a => NoListener sv a ∧ Exclusive sv a)
      [.connect "first", .selfSubscribe "first" "Coffee.ecore" .cancellationToken, .closed 0 false, .connect "second",
        .subscribe "second" "SuperBrewer3000.coffee" .cancellationToken .undefined, .message 1 "update"] sv ∧
    sv.Separate ∧ sv.inbox = [("second", 1, "update")] := by
  have run : Runs.Reached (serviceSystem String) (fun sv a => NoListener sv a ∧ Exclusive sv a)
      [.connect "first", .selfSubscribe "first" "Coffee.ecore" .cancellationToken, .closed 0 false, .connect "second",
        .subscribe "second" "SuperBrewer3000.coffee" .cancellationToken .undefined, .message 1 "update"] _ :=
    .cons ⟨trivial, trivial⟩ rfl (.cons ⟨rfl, rfl, .inr fun _ _ => nofun⟩ rfl (.cons ⟨trivial, trivial⟩ rfl
      (.cons ⟨trivial, trivial⟩ rfl (.cons ⟨⟨fun _ => nofun, rfl⟩, rfl, .inr fun _ _ => nofun⟩ rfl
        (.cons ⟨trivial, trivial⟩ rfl (.nil _))))))
  exact ⟨_, run, frontends_separate run, rfl⟩

/-- With two frontends: the first one's notification goes to the second, the second closes the socket of
    the first when it leaves, and takes its entry over when it subscribes. -/
theorem frontends_mixed_up :
    (∃ sv : Service String, Runs.Reached (serviceSystem String) NoListener
      [.connect "first", .connect "second", .selfSubscribe "first" "Coffee.ecore" .undefined, .message 0 "update"] sv ∧
      sv.requesters[0]? = some "first" ∧ sv.inbox = [("second", 0, "update")]) ∧
    (∃ sv sv' : Service String, Runs.Reached (serviceSystem String) NoListener
      [.connect "first", .selfSubscribe "first" "Coffee.ecore" .undefined, .connect "second"] sv ∧
      serviceStep sv (.disconnect "second") = some sv' ∧ "first" ∈ sv'.connected ∧ sv.requesters[0]? = some "first" ∧
      (∃ s, sv.socket? 0 = some s ∧ s.Live) ∧ ∃ s, sv'.socket? 0 = some s ∧ s.closeCalled = true) ∧
    ∃ sv sv' : Service String, Runs.Reached (serviceSystem String) NoListener
      [.connect "first", .selfSubscribe "first" "Coffee.ecore" .undefined, .connect "second"] sv ∧
      serviceStep sv (.selfSubscribe "second" "Coffee.ecore" .undefined) = some sv' ∧
      sv.entry? "Coffee.ecore" = some 0 ∧ sv.requesters[0]? = some "first" ∧
      sv'.entry? "Coffee.ecore" = some 1 ∧ sv'.requesters[1]? = some "second" := by
  refine ⟨⟨_, .cons trivial rfl (.cons trivial rfl (.cons rfl rfl (.cons trivial rfl (.nil _)))), rfl, rfl⟩, ?_, ?_⟩
  · refine ⟨_, _, .cons trivial rfl (.cons rfl rfl (.cons trivial rfl (.nil _))), rfl, ?_, rfl, ⟨_, rfl, ?_⟩, _, rfl, rfl⟩
    · decide
    · decide
  · exact ⟨_, _, .cons trivial rfl (.cons rfl rfl (.cons trivial rfl (.nil _))), rfl, rfl, rfl, rfl, rfl⟩

end ModelServer.Sockets
