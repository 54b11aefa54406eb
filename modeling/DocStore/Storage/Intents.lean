import DocStore.Storage.Scan

namespace DocStore

-- Keys that transactions reserved, each with the number of its owner.
structure IntentTable where
  owners : SortedMap Bytes Nat
  deriving Inhabited

namespace IntentTable

def empty : IntentTable := ⟨SortedMap.empty⟩

def owner? (table : IntentTable) (key : Bytes) : Option Nat := table.owners.get? key

def size (table : IntentTable) : Nat := table.owners.size

-- Reserves one key. There is no answer while another owner holds it.
def take? (table : IntentTable) (id : Nat) (key : Bytes) : Option IntentTable :=
  match table.owner? key with
  | some owner => if owner = id then some ⟨table.owners.insert key id⟩ else none
  | none => some ⟨table.owners.insert key id⟩

-- The keys in the order in which they are reserved, each once. That every transaction keeps to one
-- order is what rules out deadlocks.
def order (keys : List Bytes) : List Bytes :=
  (Assoc.ofList (keys.map (fun k => (k, ())))).map (·.1)

-- How far a transaction has come with its keys.
inductive Progress where
  | granted
  -- the next key has another owner
  | waiting
  deriving DecidableEq, Repr

-- Reserves keys one after the other, as long as they are free. The answer holds those taken.
def takeAll (table : IntentTable) (id : Nat) : List Bytes → Progress × List Bytes × IntentTable
  | [] => (.granted, [], table)
  | key :: rest =>
    match table.take? id key with
    | none => (.waiting, [], table)
    | some table =>
      let (progress, taken, table) := takeAll table id rest
      (progress, key :: taken, table)

-- Frees keys, whoever holds them.
def drop (table : IntentTable) (keys : List Bytes) : IntentTable :=
  ⟨keys.foldl (fun owners key => owners.erase key) table.owners⟩

-- Reserves all keys, or none of them where one is not free: those that were taken are freed again.
-- The first part of the answer tells which of both.
def acquire (table : IntentTable) (id : Nat) (keys : List Bytes) :
    Progress × List Bytes × IntentTable :=
  match table.takeAll id (order keys) with
  | (.granted, taken, table) => (.granted, taken, table)
  | (.waiting, taken, table) => (.waiting, [], table.drop taken)

-- Frees the keys that belong to a transaction.
def release (table : IntentTable) (id : Nat) (keys : List Bytes) : IntentTable :=
  ⟨keys.foldl
    (fun owners key => if owners.get? key = some id then owners.erase key else owners)
    table.owners⟩

end IntentTable

end DocStore
