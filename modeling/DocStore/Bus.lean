import DocStore.Context
import DocStore.SortedMap

namespace DocStore

-- A lock on a key that lasts while it is kept alive. The token tells its holder from earlier ones.
structure Lease where
  token : Nat
  duration : Time
  keptAlive : Time
  deriving DecidableEq, Repr

namespace Lease

-- A lease that was not kept alive in time can be taken over.
def expired (lease : Lease) (now : Time) : Bool := decide (lease.keptAlive + lease.duration < now)

-- The first instant at which a lease is expired, if nobody keeps it alive.
def expiry (lease : Lease) : Time := lease.keptAlive + lease.duration + 1

end Lease

-- What the holder of a lock has in hand.
structure Lock where
  key : String
  token : Nat
  held : Bool
  deriving DecidableEq, Repr

-- Locks and topics that several stores share.
structure Bus where
  leases : SortedMap String Lease
  -- how many tokens were given out
  issued : Nat
  -- the subscribers of topics, by number, with the messages that wait for them
  inboxes : SortedMap Nat (String × List Bytes)
  subscribed : Nat
  deriving Inhabited

namespace Bus

def empty : Bus := ⟨SortedMap.empty, 0, SortedMap.empty, 0⟩

-- The topic that tells of changes that reactors have dealt with.
def reconcileTopic : String := "reconcile"

-- The lock under which reactors deal with a document.
def reconcileKey (model id : String) : String := "reconcile/" ++ model ++ "/" ++ id

-- The number of locks, with those that are expired and were not taken over.
def heldLocks (bus : Bus) : Nat := bus.leases.size

-- Who waits for a lock looks again after this time.
def pollInterval : Time := Time.ofMillis 10

-- The first look, of those from `now` on, at which something that happens at an instant is seen.
def nextLook (now instant : Time) : Time :=
  now + (instant - now + pollInterval - 1) / pollInterval * pollInterval

def grant (bus : Bus) (now : Time) (key : String) (duration : Time) : Lock × Bus :=
  (⟨key, bus.issued, true⟩,
    { bus with
      leases := bus.leases.insert key ⟨bus.issued, duration, now⟩
      issued := bus.issued + 1 })

-- Takes a lock, once it is free or its lease has expired, unless the context ends before. The last
-- part of the answer is the time then.
def lock (bus : Bus) (ctx : Context) (now : Time) (key : String) (duration : Time) :
    Except Error Lock × Bus × Time :=
  let free := match bus.leases.get? key with
    | none => now
    | some lease => nextLook now lease.expiry
  let granted := let (lock, bus) := bus.grant free key duration; (.ok lock, bus, free)
  match ctx.ends now with
  | none => granted
  | some stop =>
    let seen := nextLook now stop
    match (ctx.signal seen).check with
    | .ok () => granted
    | .error e => if seen ≤ free then (.error e, bus, seen) else granted

-- Extends a lease, unless it was given up or taken over.
def keepAlive (bus : Bus) (now : Time) (lock : Lock) : Except Error Bus :=
  match bus.leases.get? lock.key with
  | some lease =>
    if lease.token = lock.token ∧ lock.held then
      .ok { bus with leases := bus.leases.insert lock.key { lease with keptAlive := now } }
    else .error (.conflict ("bus lock " ++ lock.key ++ " was lost"))
  | none => .error (.conflict ("bus lock " ++ lock.key ++ " was lost"))

-- Gives a lock up. One that was taken over stays with its new holder.
def unlock (bus : Bus) (lock : Lock) : Lock × Bus :=
  let released := { lock with held := false }
  if lock.held && (bus.leases.get? lock.key).any (fun lease => lease.token == lock.token) then
    (released, { bus with leases := bus.leases.erase lock.key })
  else (released, bus)

-- Adds a subscriber to a topic and tells its number.
def subscribe (bus : Bus) (topic : String) : Nat × Bus :=
  (bus.subscribed,
    { bus with
      inboxes := bus.inboxes.insert bus.subscribed (topic, [])
      subscribed := bus.subscribed + 1 })

def unsubscribe (bus : Bus) (subscriber : Nat) : Bus :=
  { bus with inboxes := bus.inboxes.erase subscriber }

-- Sends a message to everybody who is subscribed to the topic by now.
def send (bus : Bus) (topic : String) (message : Bytes) : Bus :=
  { bus with
    inboxes := bus.inboxes.mapValues (fun inbox =>
      if inbox.1 == topic then (inbox.1, inbox.2 ++ [message]) else inbox) }

-- The messages that wait for a subscriber, who takes them.
def receive (bus : Bus) (subscriber : Nat) : List Bytes × Bus :=
  match bus.inboxes.get? subscriber with
  | some (topic, messages) =>
    (messages, { bus with inboxes := bus.inboxes.insert subscriber (topic, []) })
  | none => ([], bus)

end Bus

end DocStore
