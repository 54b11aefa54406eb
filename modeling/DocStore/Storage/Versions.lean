import DocStore.Storage.Scan

namespace DocStore

-- The versions of one key, oldest first. A version without a value marks a deletion.
abbrev VersionChain := List (Nat × Option Bytes)

namespace VersionChain

-- The newest version that is not newer than the given one.
def visible? (chain : VersionChain) (version : Nat) : Option (Nat × Option Bytes) :=
  chain.reverse.find? (fun e => decide (e.1 ≤ version))

-- The value that is seen at a version.
def valueAt? (chain : VersionChain) (version : Nat) : Option Bytes :=
  (chain.visible? version).bind (·.2)

-- Adds a version, or replaces the newest one if it has the same number.
def record (chain : VersionChain) (version : Nat) (value : Option Bytes) : VersionChain :=
  match chain.getLast? with
  | some last =>
    if last.1 = version then chain.dropLast ++ [(version, value)] else chain ++ [(version, value)]
  | none => [(version, value)]

-- The position of the newest version that is not newer than the given one.
def visibleIndex? (chain : VersionChain) (version : Nat) : Option Nat :=
  (chain.reverse.findIdx? (fun e => decide (e.1 ≤ version))).map (fun i => chain.length - 1 - i)

-- Forgets what no reader from `oldest` on can see. A deletion that every reader sees is forgotten
-- too; then nothing is left.
def prune (chain : VersionChain) (oldest : Nat) : VersionChain :=
  let kept := chain.drop ((chain.visibleIndex? oldest).getD 0)
  match kept with
  | [(version, none)] => if version ≤ oldest then [] else kept
  | _ => kept

end VersionChain

-- Every key with its versions, and the number of the newest commit.
structure VersionStore where
  chains : SortedMap Bytes VersionChain
  current : Nat
  deriving Inhabited

namespace VersionStore

def empty : VersionStore := ⟨SortedMap.empty, 0⟩

def chain (store : VersionStore) (key : Bytes) : VersionChain := (store.chains.get? key).getD []

def getAt? (store : VersionStore) (key : Bytes) (version : Nat) : Option Bytes :=
  (store.chain key).valueAt? version

-- The number of the newest version of a key, be it a deletion.
def latest? (store : VersionStore) (key : Bytes) : Option Nat :=
  (store.chain key).getLast?.map (·.1)

-- The first pairs of a range as they are seen at a version.
def scanAt (store : VersionStore) (range : KeyRange) (version limit : Nat) : List Pair :=
  ((range.select store.chains).filterMap
    (fun e => (VersionChain.valueAt? e.2 version).map (fun value => (e.1, value)))).take limit

-- Performs a batch of writes as one version.
def apply (store : VersionStore) (writes : List Write) (version : Nat) : VersionStore :=
  { chains := writes.foldl
      (fun chains w =>
        chains.insert w.1 (VersionChain.record ((chains.get? w.1).getD []) version w.2))
      store.chains
    current := max store.current version }

-- Prunes the versions of some keys.
def prune (store : VersionStore) (keys : List Bytes) (oldest : Nat) : VersionStore :=
  { store with
    chains := keys.foldl
      (fun chains key =>
        match chains.get? key with
        | none => chains
        | some chain =>
          match VersionChain.prune chain oldest with
          | [] => chains.erase key
          | kept => chains.insert key kept)
      store.chains }

def keyCount (store : VersionStore) : Nat := store.chains.size

def versionCount (store : VersionStore) : Nat :=
  store.chains.toList.foldl (fun n e => n + e.2.length) 0

end VersionStore

end DocStore
