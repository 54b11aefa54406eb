import DocStore.Storage.Intents
import DocStore.Storage.Versions
import DocStore.Text.Escape

namespace DocStore

-- Where a transaction stands.
inductive TxnStatus where
  | active
  | validating
  | committed
  | aborted (reason : String)
  deriving DecidableEq, Repr

namespace TxnStatus

def describe : TxnStatus → String
  | .active => "Active"
  | .validating => "Validating"
  | .committed => "Committed"
  | .aborted reason => "Aborted \x7b reason: " ++ Text.quoted reason ++ " \x7d"

end TxnStatus

-- A transaction reads what was committed before it began, and buffers what it writes.
structure Txn where
  id : Nat
  start : Nat
  status : TxnStatus
  writes : SortedMap Bytes (Option Bytes)
  intents : List Bytes

-- What stands in the way of a commit.
inductive TxnConflict where
  -- another transaction committed the key after this one began
  | written (key : Bytes) (start committed : Nat)
  -- another transaction has reserved the key
  | reserved (key : Bytes) (owner : Nat)
  deriving DecidableEq, Repr

def TxnConflict.key : TxnConflict → Bytes
  | .written key _ _ => key
  | .reserved key _ => key

-- Why a commit failed.
inductive CommitFailure where
  | conflicts (found : List TxnConflict)
  | notActive (detail : String)
  deriving DecidableEq, Repr

namespace CommitFailure

def message : CommitFailure → String
  | .conflicts found => "Commit failed: " ++ toString found.length ++ " conflict(s)"
  | .notActive detail => "Invalid state: " ++ detail

def toError : CommitFailure → Error
  | .conflicts [] => .internal "validation failed without conflicts"
  | .conflicts (conflict :: _) => .writeConflict conflict.key
  | .notActive detail => .internal detail

end CommitFailure

namespace Txn

def new (id start : Nat) (intents : List Bytes) : Txn :=
  ⟨id, start, .active, SortedMap.empty, intents⟩

def isActive (txn : Txn) : Bool := txn.status == .active

def ensureActive (txn : Txn) : Except Error Unit :=
  if txn.isActive then .ok ()
  else
    .error (.internal
      ("transaction " ++ toString txn.id ++ " is not active: " ++ txn.status.describe))

-- Buffers a write.
def write (txn : Txn) (key : Bytes) (value : Option Bytes) : Except Error Txn := do
  txn.ensureActive
  return { txn with writes := txn.writes.insert key value }

def buffered? (txn : Txn) (key : Bytes) : Option (Option Bytes) := txn.writes.get? key

def beginValidation (txn : Txn) : Except CommitFailure Txn :=
  if txn.isActive then .ok { txn with status := .validating }
  else
    .error (.notActive ("cannot commit transaction " ++ toString txn.id ++ " in state "
      ++ txn.status.describe))

-- Gives up what was buffered.
def abort (txn : Txn) (reason : String) : Txn :=
  { txn with status := .aborted reason, writes := SortedMap.empty }

def describeWrites (txn : Txn) : String := String.intercalate "," (txn.writes.keys.map Bytes.escape)

-- The first of two writers to commit wins: a key must not have a version newer than the start.
def writeConflicts (txn : Txn) (store : VersionStore) : List TxnConflict :=
  txn.writes.keys.filterMap (fun key =>
    match store.latest? key with
    | some committed =>
      if txn.start < committed then some (.written key txn.start committed) else none
    | none => none)

-- A key that another transaction has reserved must not be written.
def intentConflicts (txn : Txn) (intents : IntentTable) : List TxnConflict :=
  txn.writes.keys.filterMap (fun key =>
    match intents.owner? key with
    | some owner => if owner = txn.id then none else some (.reserved key owner)
    | none => none)

def conflicts (txn : Txn) (store : VersionStore) (intents : IntentTable) : List TxnConflict :=
  txn.writeConflicts store ++ txn.intentConflicts intents

end Txn

-- The numbers given to transactions, the versions that readers hold, and the reserved keys.
structure TxnManager where
  nextId : Nat
  -- how many readers hold a version
  readers : SortedMap Nat Nat
  intents : IntentTable

namespace TxnManager

def new : TxnManager := ⟨1, SortedMap.empty, IntentTable.empty⟩

-- Holds a version for a reader.
def hold (m : TxnManager) (version : Nat) : TxnManager :=
  { m with readers := m.readers.insert version ((m.readers.get? version).getD 0 + 1) }

-- Lets go of a version for one reader.
def letGo (m : TxnManager) (version : Nat) : TxnManager :=
  match m.readers.get? version with
  | none => m
  | some count =>
    if count ≤ 1 then { m with readers := m.readers.erase version }
    else { m with readers := m.readers.insert version (count - 1) }

-- The oldest version that a reader may still look at.
def oldest (m : TxnManager) (current : Nat) : Nat :=
  match m.readers.keys.head? with
  | some version => min version current
  | none => current

def readerCount (m : TxnManager) : Nat := m.readers.toList.foldl (fun n r => n + r.2) 0

-- Opens a transaction on what is committed now.
def begin (m : TxnManager) (store : VersionStore) : Txn × TxnManager :=
  (Txn.new m.nextId store.current [], { m with nextId := m.nextId + 1 }.hold store.current)

-- Opens a transaction that has reserved some keys, once they are free. If they never are, `stop` is
-- what the wait for them ends with.
def beginExclusive (m : TxnManager) (store : VersionStore) (signal : Signal) (stop : Error)
    (keys : List Bytes) : Except Error Txn × TxnManager :=
  match signal.check with
  | .error e => (.error e, m)
  | .ok () =>
    let numbered := { m with nextId := m.nextId + 1 }
    match m.intents.acquire m.nextId keys with
    | (.granted, taken, intents) =>
      (.ok (Txn.new m.nextId store.current taken),
        { numbered with intents := intents }.hold store.current)
    | (.waiting, _, intents) => (.error stop, { numbered with intents := intents })

-- Commits as one new version, or aborts on a conflict. Nothing to write means no new version.
def commit (m : TxnManager) (txn : Txn) (store : VersionStore) :
    Except CommitFailure Nat × Txn × VersionStore :=
  match txn.beginValidation with
  | .error failure => (.error failure, txn, store)
  | .ok txn =>
    match txn.conflicts store m.intents with
    | [] =>
      if txn.writes.size = 0 then (.ok txn.start, { txn with status := .committed }, store)
      else
        let version := store.current + 1
        (.ok version, { txn with status := .committed, writes := SortedMap.empty },
          store.apply txn.writes.toList version)
    | conflicts => (.error (.conflicts conflicts), txn.abort "write conflict", store)

-- Ends a transaction, in whatever state it is.
def finish (m : TxnManager) (txn : Txn) : Txn × TxnManager :=
  let ended := if txn.isActive then txn.abort "rolled back" else txn
  ({ ended with intents := [] },
    { m with intents := m.intents.release txn.id txn.intents }.letGo txn.start)

-- Prunes keys as far as no reader needs their versions.
def prune (m : TxnManager) (store : VersionStore) (keys : List Bytes) : VersionStore :=
  store.prune keys (m.oldest store.current)

end TxnManager

end DocStore
