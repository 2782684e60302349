import Mathlib.Data.List.AList

namespace ModelServer.Sockets

variable {L : Type}

/-- A WebSocket that a client created, and what has happened to it. -/
structure Socket (L : Type) where
  modeluri : String
  listener : Option L
  closeCalled : Bool := false
  closeDelivered : Bool := false
  sent : List String := []
  deriving DecidableEq, Repr

/-- Neither closed by the client nor known to be closed. -/
def Socket.Live (s : Socket L) : Prop := s.closeCalled = false ∧ s.closeDelivered = false

instance (s : Socket L) : Decidable s.Live := inferInstanceAs (Decidable (_ ∧ _))

/-- The sockets are numbered in the order of their creation. -/
structure Client (L : Type) where
  sockets : List (Socket L)
  openSockets : AList fun _ : String => Nat
  console : List String

namespace Client

def start : Client L := ⟨[], ∅, []⟩

def socket? (c : Client L) (id : Nat) : Option (Socket L) := c.sockets[id]?

def update (c : Client L) (id : Nat) (f : Socket L → Socket L) : Client L :=
  { c with sockets := c.sockets.modify id f }

def close (c : Client L) (id : Nat) : Client L := c.update id fun s => { s with closeCalled := true }

def delete (c : Client L) (modeluri : String) : Client L := { c with openSockets := c.openSockets.erase modeluri }

def warn (c : Client L) (message : String) : Client L := { c with console := c.console ++ [message] }

def isSocketOpen (c : Client L) (modeluri : String) : Bool := (c.openSockets.lookup modeluri).isSome

def doSubscribe (c : Client L) (listener : Option L) (modeluri : String) : Client L :=
  { c with
    sockets := c.sockets ++ [{ modeluri, listener }]
    openSockets := c.openSockets.insert modeluri c.sockets.length }

def send (c : Client L) (modeluri message : String) : Client L × Bool :=
  match c.openSockets.lookup modeluri with
  | some openSocket => (c.update openSocket fun s => { s with sent := s.sent ++ [message] }, true)
  | none => (c, false)

def unsubscribe (c : Client L) (modeluri : String) : Client L × Bool :=
  match c.openSockets.lookup modeluri with
  | some openSocket => ((c.close openSocket).delete modeluri, true)
  | none => (c, false)

end Client

def noListener (modeluri : String) : String := modeluri ++ " : Cannot subscribe. No listener is present!'"

def alreadySubscribed (modeluri : String) : String :=
  modeluri ++ " : Cannot open new socket, already subscribed!'"

/-- The check for a second subscription, which both clients make before they open a socket. -/
def openUnlessSubscribed (c : Client L) (modeluri : String) (listener : Option L) (errorWhenUnsuccessful : Bool) :
    Client L × Except String Unit :=
  if c.isSocketOpen modeluri then
    let warned := c.warn (alreadySubscribed modeluri)
    if errorWhenUnsuccessful then (warned, .error (alreadySubscribed modeluri))
    else (warned.doSubscribe listener modeluri, .ok ())
  else (c.doSubscribe listener modeluri, .ok ())

namespace V1

def subscribe (c : Client L) (modeluri : String) (listener : Option L) (errorWhenUnsuccessful : Bool) :
    Client L × Except String Unit :=
  if listener.isNone then (c, .error (noListener modeluri))
  else openUnlessSubscribed c modeluri listener errorWhenUnsuccessful

/-- The handler of the close event; the map is left alone when the listener throws. -/
def onclose (c : Client L) (modeluri : String) (listenerThrows : Bool) : Client L :=
  if listenerThrows then c else c.delete modeluri

end V1

namespace V2

def subscribe (c : Client L) (modeluri : String) (listener : Option L) (errorWhenUnsuccessful : Bool) :
    Client L × Except String Unit :=
  openUnlessSubscribed c modeluri listener errorWhenUnsuccessful

def onclose (c : Client L) (_modeluri : String) (_listenerThrows : Bool) : Client L := c

end V2

end ModelServer.Sockets
