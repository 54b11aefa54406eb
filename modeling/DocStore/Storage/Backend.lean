import DocStore.Storage.Transaction
import DocStore.Storage.View

namespace DocStore

-- A store of keys that keeps versions, so that any number of writers may be at work at once.
structure MultiVersion where
  store : VersionStore
  manager : TxnManager

-- A store of keys that admits one writer at a time.
structure SingleWriter where
  data : SortedMap Bytes Bytes
  -- a writer is at work
  busy : Bool

-- The storage below the documents, of either kind.
inductive Kv where
  | multi (kv : MultiVersion)
  | single (kv : SingleWriter)

-- The kinds of storage that can be asked for.
inductive BackendKind where
  | mvcc
  | embedded
  deriving DecidableEq, Repr, Inhabited

namespace BackendKind

def name : BackendKind → String
  | .mvcc => "mvcc"
  | .embedded => "embedded"

def ofName? : String → Option BackendKind
  | "mvcc" => some .mvcc
  | "embedded" => some .embedded
  | _ => none

end BackendKind

-- A reader, or a writer with what it buffered.
inductive Handle where
  | multiRead (version : Nat) (closed : Bool)
  | multiWrite (txn : Txn) (finished : Bool)
  | singleRead (closed : Bool)
  | singleWrite (writes : SortedMap Bytes (Option Bytes)) (isOpen : Bool)

-- An iterator of a handle, or the error that it consists of.
inductive Iter where
  | failed (e : Option Error)
  | walk (overlay : Overlay)

namespace Kv

def new : BackendKind → Kv
  | .mvcc => .multi ⟨VersionStore.empty, TxnManager.new⟩
  | .embedded => .single ⟨SortedMap.empty, false⟩

def kind : Kv → BackendKind
  | .multi _ => .mvcc
  | .single _ => .embedded

-- What is committed, as one map.
def committed : Kv → List Pair
  | .multi kv => kv.store.scanAt KeyRange.all kv.store.current kv.store.keyCount
  | .single kv => kv.data.toList

-- An upper bound for the number of keys that a walk may yield.
def keyBound : Kv → Nat
  | .multi kv => kv.store.keyCount
  | .single kv => kv.data.size

section Opening

-- A reader of a multi-version store sees what is committed when it opens.
def read : Kv → Handle × Kv
  | .multi kv =>
    (.multiRead kv.store.current false,
      .multi { kv with manager := kv.manager.hold kv.store.current })
  | .single kv => (.singleRead false, .single kv)

-- Opens a writer. A single-writer store has to be free; if it never is, `stop` is what the wait
-- ends with.
def write (kv : Kv) (signal : Signal) (stop : Error) : Except Error Handle × Kv :=
  match signal.check with
  | .error e => (.error e, kv)
  | .ok () =>
    match kv with
    | .multi kv =>
      let (txn, manager) := kv.manager.begin kv.store
      (.ok (.multiWrite txn false), .multi { kv with manager := manager })
    | .single kv =>
      if kv.busy then (.error stop, .single kv)
      else (.ok (.singleWrite SortedMap.empty true), .single { kv with busy := true })

-- Opens a writer that nobody else can overtake on some keys.
def writeExclusive (kv : Kv) (signal : Signal) (stop : Error) (keys : List Bytes) :
    Except Error Handle × Kv :=
  match kv with
  | .multi kv =>
    match kv.manager.beginExclusive kv.store signal stop keys with
    | (.ok txn, manager) => (.ok (.multiWrite txn false), .multi { kv with manager := manager })
    | (.error e, manager) => (.error e, .multi { kv with manager := manager })
  | .single kv => (Kv.single kv).write signal stop

end Opening

section Reading

private def closedError : Error := .internal "kv handle is closed"
private def endedError : Error := .internal "transaction is no longer active"

-- A handle that was closed, or whose transaction has ended, can no longer be used.
def usable : Handle → Except Error Unit
  | .multiRead _ closed => if closed then .error closedError else .ok ()
  | .multiWrite txn _ => txn.ensureActive
  | .singleRead closed => if closed then .error closedError else .ok ()
  | .singleWrite _ isOpen => if isOpen then .ok () else .error endedError

-- What a handle has buffered for a key.
def buffered? : Handle → Bytes → Option (Option Bytes)
  | .multiWrite txn _, key => txn.buffered? key
  | .singleWrite writes _, key => writes.get? key
  | _, _ => none

-- The writes that a handle has buffered, by key.
def bufferedWrites : Handle → SortedMap Bytes (Option Bytes)
  | .multiWrite txn _ => txn.writes
  | .singleWrite writes _ => writes
  | _ => SortedMap.empty

-- The value that a handle finds below what it buffered.
def below? (kv : Kv) (h : Handle) (key : Bytes) : Option Bytes :=
  match kv, h with
  | .multi kv, .multiRead version _ => kv.store.getAt? key version
  | .multi kv, .multiWrite txn _ => kv.store.getAt? key txn.start
  | .single kv, .singleRead _ => kv.data.get? key
  | .single kv, .singleWrite _ _ => kv.data.get? key
  | _, _ => none

def get (kv : Kv) (h : Handle) (signal : Signal) (key : Bytes) : Except Error (Option Bytes) := do
  signal.check
  usable h
  match buffered? h key with
  | some value => return value
  | none => return kv.below? h key

-- The first pairs of a range that a handle finds below what it buffered.
def scan (kv : Kv) (h : Handle) (range : KeyRange) (limit : Nat) : List Pair :=
  match kv, h with
  | .multi kv, .multiRead version _ => kv.store.scanAt range version limit
  | .multi kv, .multiWrite txn _ => kv.store.scanAt range txn.start limit
  | .single kv, .singleRead _ => (range.select kv.data).take limit
  | .single kv, .singleWrite _ _ => (range.select kv.data).take limit
  | _, _ => []

-- An iterator over a range. What the handle has buffered by now is part of it.
def iter (h : Handle) (range : KeyRange) : Iter :=
  match usable h with
  | .error e => .failed (some e)
  | .ok () =>
    .walk (Overlay.ofScan (Scan.ofRange range Scan.defaultChunk) (range.select (bufferedWrites h)))

-- The next item of an iterator. Pairs are fetched from what is there at the time.
def pull (kv : Kv) (h : Handle) (signal : Signal) : Iter → Option (Except Error Pair) × Iter
  | .failed e => (e.map .error, .failed none)
  | .walk overlay =>
    let fetch (range : KeyRange) (limit : Nat) : Except Error (List Pair) := do
      signal.check
      return kv.scan h range limit
    let (item, overlay) := overlay.pull fetch
    (item, .walk overlay)

-- All items of an iterator while nothing changes.
def entries (kv : Kv) (h : Handle) (signal : Signal) (range : KeyRange) :
    List (Except Error Pair) :=
  collect (kv.pull h signal) (kv.keyBound + (bufferedWrites h).size + 2) (iter h range)

-- What a handle can read, as long as the signal stays.
def view (kv : Kv) (h : Handle) (signal : Signal) : View := ⟨kv.get h signal, kv.entries h signal⟩

end Reading

section Writing

-- Buffers a write. Readers have no business here.
def buffer (h : Handle) (key : Bytes) (value : Option Bytes) : Except Error Handle :=
  match h with
  | .multiWrite txn finished => do return .multiWrite (← txn.write key value) finished
  | .singleWrite writes isOpen =>
    if isOpen then .ok (.singleWrite (writes.insert key value) isOpen) else .error endedError
  | _ => .error (.internal "handle is not writable")

def bufferAll (h : Handle) (writes : List Write) : Except Error Handle :=
  writes.foldlM (fun h w => buffer h w.1 w.2) h

-- Closes a reader, or ends a writer without a commit. A handle ends once only.
def close (kv : Kv) (h : Handle) : Handle × Kv :=
  match kv, h with
  | .multi kv, .multiRead version false =>
    (.multiRead version true, .multi { kv with manager := kv.manager.letGo version })
  | .multi kv, .multiWrite txn false =>
    let (txn, manager) := kv.manager.finish txn
    (.multiWrite txn true, .multi { kv with manager := manager })
  | kv, .singleRead _ => (.singleRead true, kv)
  | .single kv, .singleWrite _ true =>
    (.singleWrite SortedMap.empty false, .single { kv with busy := false })
  | kv, h => (h, kv)

-- Commits what a writer buffered, and ends it. A context that is over ends it without a commit.
def commit (kv : Kv) (h : Handle) (signal : Signal) : Except Error Unit × Handle × Kv :=
  match kv, h with
  | .multi m, .multiWrite txn finished =>
    match signal.check with
    | .error e =>
      let (h, kv) := kv.close h
      (.error e, h, kv)
    | .ok () =>
      let keys := txn.writes.keys
      let (outcome, txn, store) := m.manager.commit txn m.store
      let (h, kv) := Kv.close (.multi { m with store := store }) (.multiWrite txn finished)
      match outcome, kv with
      | .error failure, kv => (.error failure.toError, h, kv)
      | .ok _, .multi m => (.ok (), h, .multi { m with store := m.manager.prune m.store keys })
      | .ok _, kv => (.ok (), h, kv)
  | .single s, .singleWrite writes isOpen =>
    if !isOpen then (.error endedError, h, kv)
    else
      match signal.check with
      | .error e =>
        let (h, kv) := kv.close h
        (.error e, h, kv)
      | .ok () =>
        let (h, kv) := Kv.close (.single { s with data := s.data.setAll writes.toList }) h
        (.ok (), h, kv)
  | kv, h => (.error (.internal "handle is not writable"), h, kv)

-- Performs some writes in a transaction of their own.
def update (kv : Kv) (signal : Signal) (stop : Error) (writes : List Write) :
    Except Error Unit × Kv :=
  match kv.write signal stop with
  | (.error e, kv) => (.error e, kv)
  | (.ok h, kv) =>
    match bufferAll h writes with
    | .error e => (.error e, (kv.close h).2)
    | .ok h =>
      let (result, _, kv) := kv.commit h signal
      (result, kv)

end Writing

end Kv

end DocStore
