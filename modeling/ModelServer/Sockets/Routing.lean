import ModelServer.Sockets.Frontends
import Mathlib.Data.List.Perm.Basic

namespace ModelServer.Sockets

variable {L : Type}

def acceptedBy (c : Client L) : Action L → List (String × String)
  | .send modeluri message => if (c.send modeluri message).2 then [(modeluri, message)] else []
  | _ => []

def accepted (version : Version) : Client L → List (Action L) → List (String × String)
  | _, [] => []
  | c, a :: as =>
    match step version c a with
    | some c' => acceptedBy c a ++ accepted version c' as
    | none => []

def ofModel (modeluri : String) (messages : List (String × String)) : List String :=
  (messages.filter fun message => message.1 = modeluri).map Prod.snd

theorem ofModel_append (modeluri : String) (left right : List (String × String)) :
    ofModel modeluri (left ++ right) = ofModel modeluri left ++ ofModel modeluri right := by
  rw [ofModel, List.filter_append, List.map_append]
  rfl

def Socket.routed (s : Socket L) : List (String × String) := s.sent.map fun message => (s.modeluri, message)

theorem flatMap_modify {α β : Type} {g : α → List β} {f : α → α} {extra : List β} {xs : List α} {i : Nat} {x : α}
    (at_i : xs[i]? = some x) (added : g (f x) = g x ++ extra) :
    ((xs.modify i f).flatMap g).Perm (xs.flatMap g ++ extra) := by
  induction xs generalizing i with
  | nil => cases at_i
  | cons y ys ih =>
    cases i with
    | zero =>
      cases at_i
      rw [List.modify_zero_cons, List.flatMap_cons, List.flatMap_cons, added, List.append_assoc, List.append_assoc]
      exact List.perm_append_comm.append_left _
    | succ i =>
      rw [List.modify_succ_cons, List.flatMap_cons, List.flatMap_cons, List.append_assoc]
      exact (ih at_i).append_left _

namespace Client

def delivered (c : Client L) : List (String × String) := c.sockets.flatMap Socket.routed

def sentThrough (c : Client L) (id : Nat) : List String := ((c.socket? id).map Socket.sent).getD []

/-- The sockets have been given new messages, each socket only messages of its own model and in their order. -/
structure Routes (c c' : Client L) (messages : List (String × String)) : Prop where
  delivered : c'.delivered.Perm (c.delivered ++ messages)
  length : c.sockets.length ≤ c'.sockets.length
  modeluri : ∀ id s s', c.socket? id = some s → c'.socket? id = some s' → s'.modeluri = s.modeluri
  own : ∀ id s', c'.socket? id = some s' → ∃ more, s'.sent = c.sentThrough id ++ more ∧
    more.Sublist (ofModel s'.modeluri messages)

variable {c c' c'' : Client L}

theorem Routes.refl (c : Client L) : Routes c c [] where
  delivered := by rw [List.append_nil]
  length := le_rfl
  modeluri id s s' at_id at_id' := by
    cases at_id.symm.trans at_id'
    rfl
  own id s at_id := ⟨[], by simp [sentThrough, at_id], List.nil_sublist _⟩

theorem Routes.of_sockets (same : c'.sockets = c.sockets) : Routes c c' [] := by
  have routes := Routes.refl c
  refine ⟨?_, ?_, ?_, ?_⟩
  · unfold Client.delivered
    rw [same, List.append_nil]
  · rw [same]
  · intro id s s' at_id at_id'
    unfold socket? at at_id'
    rw [same] at at_id'
    exact routes.modeluri id s s' at_id at_id'
  · intro id s' at_id'
    unfold socket? at at_id'
    rw [same] at at_id'
    exact routes.own id s' at_id'

theorem Routes.trans {messages messages' : List (String × String)} (first : Routes c c' messages)
    (second : Routes c' c'' messages') : Routes c c'' (messages ++ messages') where
  delivered := by
    rw [← List.append_assoc]
    exact second.delivered.trans (first.delivered.append_right _)
  length := Nat.le_trans first.length second.length
  modeluri id s s'' at_id at_id'' := by
    have inside := (List.getElem?_eq_some_iff.mp at_id).1
    have kept : c'.socket? id = some _ := List.getElem?_eq_getElem (Nat.lt_of_lt_of_le inside first.length)
    rw [second.modeluri id _ s'' kept at_id'', first.modeluri id s _ at_id kept]
  own id s'' at_id'' := by
    rcases second.own id s'' at_id'' with ⟨later, sent, sublist⟩
    cases at_id' : c'.socket? id with
    | none =>
      have absent : c.socket? id = none := by
        have outside := List.getElem?_eq_none_iff.mp at_id'
        exact List.getElem?_eq_none_iff.mpr (Nat.le_trans first.length outside)
      refine ⟨later, ?_, ?_⟩
      · rw [sent]
        simp [sentThrough, at_id', absent]
      · rw [ofModel_append]
        exact sublist.trans (List.sublist_append_right _ _)
    | some s' =>
      rcases first.own id s' at_id' with ⟨earlier, sent', sublist'⟩
      refine ⟨earlier ++ later, ?_, ?_⟩
      · have through : c'.sentThrough id = s'.sent := by simp [sentThrough, at_id']
        rw [sent, through, sent', List.append_assoc]
      · rw [← second.modeluri id s' s'' at_id' at_id''] at sublist'
        rw [ofModel_append]
        exact sublist'.append sublist

theorem Routes.update {id : Nat} {s : Socket L} (at_id : c.socket? id = some s) {f : Socket L → Socket L}
    (same : (f s).modeluri = s.modeluri) {extra : List String} (sent : (f s).sent = s.sent ++ extra) :
    Routes c (c.update id f) (extra.map fun message => (s.modeluri, message)) where
  delivered := by
    apply flatMap_modify at_id
    rw [Socket.routed, Socket.routed, same, sent, List.map_append]
  length := by simp [Client.update]
  modeluri i s s' at_i at_i' := by
    rw [socket_update, at_i] at at_i'
    split at at_i'
    · rename_i here
      rw [here, at_id] at at_i
      cases at_i
      rw [← Option.some.inj at_i']
      exact same
    · cases at_i'
      rfl
  own i s' at_i' := by
    rw [socket_update] at at_i'
    split at at_i'
    · rename_i here
      rw [here, at_id] at at_i'
      cases at_i'
      refine ⟨extra, by simp [sentThrough, here, at_id, sent], ?_⟩
      rw [same]
      simp [ofModel, List.filter_map, Function.comp_def]
    · exact ⟨[], by simp [sentThrough, at_i'], List.nil_sublist _⟩

theorem Routes.update_silent (c : Client L) (id : Nat) {f : Socket L → Socket L}
    (same : ∀ s, (f s).modeluri = s.modeluri ∧ (f s).sent = s.sent) : Routes c (c.update id f) [] := by
  cases at_id : c.socket? id with
  | none =>
    apply Routes.of_sockets
    exact List.modify_eq_self (List.getElem?_eq_none_iff.mp at_id)
  | some s =>
    have routes := @Routes.update _ c id s at_id f (same s).1 [] (by rw [(same s).2, List.append_nil])
    exact routes

theorem Routes.openUnlessSubscribed (c : Client L) (modeluri : String) (listener : Option L)
    (errorWhenUnsuccessful : Bool) :
    Routes c (openUnlessSubscribed c modeluri listener errorWhenUnsuccessful).1 [] := by
  rcases openUnlessSubscribed_outcome c modeluri listener errorWhenUnsuccessful rfl with ⟨sockets, -⟩ | ⟨sockets, -, -⟩
  · exact Routes.of_sockets sockets
  · refine ⟨?_, ?_, ?_, ?_⟩
    · unfold Client.delivered
      rw [sockets, List.flatMap_append]
      exact .refl _
    · rw [sockets, List.length_append]
      exact Nat.le_add_right _ _
    · intro id s s' at_id at_id'
      unfold socket? at at_id at_id'
      rw [sockets, List.getElem?_append_left (List.getElem?_eq_some_iff.mp at_id).1, at_id] at at_id'
      cases at_id'
      rfl
    · intro id s' at_id'
      refine ⟨[], ?_, List.nil_sublist _⟩
      unfold socket? at at_id'
      rw [sockets, List.getElem?_append] at at_id'
      split at at_id'
      · simp [sentThrough, socket?, at_id']
      · rename_i new
        have absent : c.socket? id = none := List.getElem?_eq_none_iff.mpr (Nat.le_of_not_lt new)
        rw [List.getElem?_singleton] at at_id'
        split at at_id'
        · cases at_id'
          simp [sentThrough, absent]
        · cases at_id'

theorem Routes.send (entries : c.Entries fun _ => True) (modeluri message : String) :
    Routes c (c.send modeluri message).1 (acceptedBy c (.send modeluri message)) := by
  cases found : c.openSockets.lookup modeluri with
  | none =>
    have dropped : c.send modeluri message = (c, false) := by rw [Client.send, found]
    rw [acceptedBy, dropped]
    exact .refl c
  | some id =>
    rcases entries modeluri id found with ⟨s, at_id, here, -⟩
    have routes := @Routes.update _ c id s at_id (fun s => { s with sent := s.sent ++ [message] }) rfl [message] rfl
    rw [here] at routes
    have passed : c.send modeluri message =
        (c.update id fun s => { s with sent := s.sent ++ [message] }, true) := by rw [Client.send, found]
    rw [acceptedBy, passed]
    exact routes

theorem Routes.closed {version : Version} {id : Nat} {listenerThrows : Bool}
    (delivered : c.closed version id listenerThrows = some c') : Routes c c' [] := by
  unfold Client.closed at delivered
  split at delivered
  · split at delivered
    · cases delivered
    · rw [← Option.some.inj delivered]
      have marked := Routes.update_silent c id (fun s => ⟨rfl, rfl⟩ :
        ∀ s : Socket L, ({ s with closeDelivered := true } : Socket L).modeluri = s.modeluri ∧
          ({ s with closeDelivered := true } : Socket L).sent = s.sent)
      cases version with
      | v2 => exact marked
      | v1 =>
        cases listenerThrows with
        | true => exact marked
        | false => exact marked.trans (Routes.of_sockets rfl)
  · cases delivered

theorem Routes.step (entries : c.Entries fun _ => True) {version : Version} {a : Action L}
    (stepped : Sockets.step version c a = some c') : Routes c c' (acceptedBy c a) := by
  cases a with
  | subscribe modeluri listener errorWhenUnsuccessful =>
    rw [← Option.some.inj stepped]
    cases version with
    | v2 => exact Routes.openUnlessSubscribed c modeluri listener errorWhenUnsuccessful
    | v1 =>
      cases listener with
      | none => exact .refl c
      | some l => exact Routes.openUnlessSubscribed c modeluri (some l) errorWhenUnsuccessful
  | unsubscribe modeluri =>
    rw [← Option.some.inj stepped]
    unfold Client.unsubscribe
    split
    · rename_i openSocket _
      have closed : Routes c (c.close openSocket) [] := Routes.update_silent c openSocket fun _ => ⟨rfl, rfl⟩
      exact closed.trans (Routes.of_sockets rfl)
    · exact .refl c
  | send modeluri message =>
    rw [← Option.some.inj stepped]
    exact Routes.send entries modeluri message
  | closed id listenerThrows => exact Routes.closed stepped

theorem Entries.openUnlessSubscribed (entries : c.Entries fun _ => True) (modeluri : String) (listener : Option L)
    (errorWhenUnsuccessful : Bool) :
    (openUnlessSubscribed c modeluri listener errorWhenUnsuccessful).1.Entries fun _ => True := by
  unfold Sockets.openUnlessSubscribed
  split
  · split
    · exact entries
    · have warned : (c.warn (alreadySubscribed modeluri)).Entries fun _ => True := entries
      exact warned.doSubscribe trivial
  · exact entries.doSubscribe trivial

theorem Entries.step (entries : c.Entries fun _ => True) {version : Version} {a : Action L}
    (stepped : Sockets.step version c a = some c') : c'.Entries fun _ => True := by
  have silent {d : Client L} (e : d.Entries fun _ => True) (id : Nat) {f : Socket L → Socket L}
      (same : ∀ s, (f s).modeluri = s.modeluri) : (d.update id f).Entries fun _ => True :=
    e.update same fun _ _ _ _ => trivial
  cases a with
  | subscribe modeluri listener errorWhenUnsuccessful =>
    rw [← Option.some.inj stepped]
    cases version with
    | v2 => exact entries.openUnlessSubscribed modeluri listener errorWhenUnsuccessful
    | v1 =>
      cases listener with
      | none => exact entries
      | some l => exact entries.openUnlessSubscribed modeluri (some l) errorWhenUnsuccessful
  | unsubscribe modeluri =>
    rw [← Option.some.inj stepped]
    unfold Client.unsubscribe
    split
    · rename_i openSocket _
      have closed : (c.close openSocket).Entries fun _ => True := silent entries openSocket fun _ => rfl
      exact closed.delete modeluri
    · exact entries
  | send modeluri message =>
    rw [← Option.some.inj stepped]
    unfold Client.send
    split
    · exact silent entries _ fun _ => rfl
    · exact entries
  | closed id listenerThrows =>
    change c.closed version id listenerThrows = some c' at stepped
    unfold Client.closed at stepped
    split at stepped
    · rename_i s _
      split at stepped
      · cases stepped
      · rw [← Option.some.inj stepped]
        have marked : (c.update id fun s => { s with closeDelivered := true }).Entries fun _ => True :=
          silent entries id fun _ => rfl
        cases version with
        | v2 => exact marked
        | v1 =>
          cases listenerThrows with
          | true => exact marked
          | false => exact marked.delete s.modeluri
    · cases stepped

theorem Routes.run {version : Version} {ok : Client L → Action L → Prop} {as : List (Action L)}
    (run : Runs.Run (system L version) ok c as c') (entries : c.Entries fun _ => True) :
    Routes c c' (accepted version c as) := by
  induction run with
  | nil c => exact .refl c
  | cons _ stepped _ ih =>
    change Sockets.step version _ _ = some _ at stepped
    rw [accepted, stepped]
    exact (Routes.step entries stepped).trans (ih (entries.step stepped))

end Client

/-- In every run of both clients the sends that return true are given to the sockets, each exactly once, and a socket
    is only ever given messages for its own model, in the order of the sends. -/
theorem messages_routed {version : Version} {as : List (Action L)} {c : Client L}
    (run : Runs.Reached (system L version) (fun _ _ => True) as c) :
    c.delivered.Perm (accepted version .start as) ∧
      ∀ id s, c.socket? id = some s → s.sent.Sublist (ofModel s.modeluri (accepted version .start as)) := by
  have routes : Client.Routes .start c (accepted version .start as) := Client.Routes.run run .start
  refine ⟨routes.delivered, ?_⟩
  intro id s at_id
  rcases routes.own id s at_id with ⟨more, sent, sublist⟩
  rw [sent]
  exact sublist

theorem messages_routed_resubscribed :
    ∃ c : Client String, Runs.Reached (system String .v1) (fun _ _ => True)
      [.subscribe "a" (some "listener") true, .send "a" "1", .send "b" "2", .unsubscribe "a",
        .subscribe "a" (some "listener") true, .send "a" "3"] c ∧
    accepted .v1 (.start : Client String) [.subscribe "a" (some "listener") true, .send "a" "1", .send "b" "2",
      .unsubscribe "a", .subscribe "a" (some "listener") true, .send "a" "3"] = [("a", "1"), ("a", "3")] ∧
    c.delivered.Perm [("a", "1"), ("a", "3")] := by
  have run : Runs.Reached (system String .v1) (fun _ _ => True)
      [.subscribe "a" (some "listener") true, .send "a" "1", .send "b" "2", .unsubscribe "a",
        .subscribe "a" (some "listener") true, .send "a" "3"] _ :=
    .cons trivial rfl (.cons trivial rfl (.cons trivial rfl (.cons trivial rfl (.cons trivial rfl (.cons trivial rfl
      (.nil _))))))
  exact ⟨_, run, rfl, (messages_routed run).1⟩

end ModelServer.Sockets
