import DocStore.Context
import DocStore.KeyRange

namespace DocStore

-- A key with its value.
abbrev Pair := Bytes × Bytes

-- A key with its new value, or with none where it is deleted.
abbrev Write := Bytes × Option Bytes

-- What an iterator yields in the end, one item after the other. `fuel` bounds their number.
def collect {ι α : Type} (pull : ι → Option α × ι) : Nat → ι → List α
  | 0, _ => []
  | fuel + 1, it =>
    match pull it with
    | (none, _) => []
    | (some a, it) => a :: collect pull fuel it

-- An ordered walk through a range that fetches a limited number of pairs at a time.
structure Scan where
  -- what is still to be fetched
  left : KeyRange
  chunk : Nat
  buffer : List Pair
  exhausted : Bool
  deriving DecidableEq, Repr

namespace Scan

def defaultChunk : Nat := 256

def ofRange (range : KeyRange) (chunk : Nat) : Scan := ⟨range, max chunk 1, [], false⟩

-- The walk must fetch before it can yield another pair.
def isDry (s : Scan) : Bool := s.buffer.isEmpty && !s.exhausted

-- Takes up what was fetched. Fewer pairs than asked for are the last ones; the next fetch starts
-- right behind the last pair.
def supply (s : Scan) (batch : List Pair) : Scan :=
  { s with
    left := match batch.getLast? with
      | some last => { s.left with start := last.1.successor }
      | none => s.left
    buffer := s.buffer ++ batch
    exhausted := s.exhausted || decide (batch.length < s.chunk) }

-- The next pair. A fetch that fails is reported once, and ends the walk.
def pull (fetch : KeyRange → Nat → Except Error (List Pair)) (s : Scan) :
    Option (Except Error Pair) × Scan :=
  let pop (s : Scan) : Option (Except Error Pair) × Scan :=
    match s.buffer with
    | [] => (none, s)
    | pair :: rest => (some (.ok pair), { s with buffer := rest })
  if s.isDry then
    match fetch s.left s.chunk with
    | .error e => (some (.error e), { s with exhausted := true })
    | .ok batch => pop (s.supply batch)
  else pop s

end Scan

-- A walk with buffered writes laid over it. A write hides the pair of the same key, and a deletion
-- has nothing to show in its place.
structure Overlay where
  base : Scan
  -- the next item of the walk below, if it was looked at already
  peeked : Option (Option (Except Error Pair))
  writes : List Write

namespace Overlay

def ofScan (base : Scan) (writes : List Write) : Overlay := ⟨base, none, writes⟩

-- The next item of the walk below, which stays there.
def peek (fetch : KeyRange → Nat → Except Error (List Pair)) (o : Overlay) :
    Option (Except Error Pair) × Overlay :=
  match o.peeked with
  | some item => (item, o)
  | none =>
    let (item, base) := o.base.pull fetch
    (item, { o with base := base, peeked := some item })

-- The next item, where `writes` are those left over.
def pullWith (fetch : KeyRange → Nat → Except Error (List Pair)) (o : Overlay) :
    List Write → Option (Except Error Pair) × Overlay
  | [] =>
    let (item, o) := o.peek fetch
    (item, { o with peeked := none, writes := [] })
  | (key, value) :: rest =>
    match o.peek fetch with
    | (some (.error e), o) =>
      (some (.error e), { o with peeked := none, writes := (key, value) :: rest })
    | (some (.ok pair), o) =>
      if pair.1 < key then
        (some (.ok pair), { o with peeked := none, writes := (key, value) :: rest })
      else
        let o := if pair.1 = key then { o with peeked := none } else o
        match value with
        | some v => (some (.ok (key, v)), { o with writes := rest })
        | none => pullWith fetch o rest
    | (none, o) =>
      match value with
      | some v => (some (.ok (key, v)), { o with writes := rest })
      | none => pullWith fetch o rest

def pull (fetch : KeyRange → Nat → Except Error (List Pair)) (o : Overlay) :
    Option (Except Error Pair) × Overlay :=
  o.pullWith fetch o.writes

end Overlay

end DocStore
