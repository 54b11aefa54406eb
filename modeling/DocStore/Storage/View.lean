import DocStore.Storage.Scan

namespace DocStore

-- What can be read at one moment: single keys, and ranges in ascending order of their keys.
structure View where
  get : Bytes → Except Error (Option Bytes)
  entries : KeyRange → List (Except Error Pair)

namespace View

-- The view of a map. Reading it never fails.
def ofMap (map : SortedMap Bytes Bytes) : View where
  get key := .ok (map.get? key)
  entries range := (range.select map).map .ok

end View

end DocStore
