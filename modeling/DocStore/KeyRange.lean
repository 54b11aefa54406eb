import DocStore.SortedMap
import DocStore.Bytes

namespace DocStore

-- The keys from `start` up to, and without, `stop`. An empty `stop` leaves the range open.
structure KeyRange where
  start : Bytes
  stop : Bytes
  deriving DecidableEq, Repr

namespace KeyRange

-- Every key there is.
def all : KeyRange := ⟨[], []⟩

-- The keys that begin with the given bytes.
def ofPrefix (bytes : Bytes) : KeyRange := ⟨bytes, bytes.afterPrefix⟩

def contains (range : KeyRange) (key : Bytes) : Bool :=
  decide (range.start ≤ key) && (range.stop.isEmpty || decide (key < range.stop))

-- An inverted range holds no key.
def isInverted (range : KeyRange) : Bool :=
  !range.stop.isEmpty && decide (range.stop ≤ range.start)

-- The part of a map that lies in a range, in ascending order.
def select {α : Type} (range : KeyRange) (map : SortedMap Bytes α) : List (Bytes × α) :=
  map.toList.filter (fun e => range.contains e.1)

end KeyRange

end DocStore
