import DocStore.Base64
import DocStore.Error
import DocStore.Request

namespace DocStore

-- Why a search cannot be run.
inductive SearchFault where
  -- no model, no filter, or a filter without a key
  | incomplete
  | manyOperators (key : String)
  | skipWithoutStart (key : String)
  | startNotText (key : String)
  | unreadableCursor
  -- the cursor belongs to another search
  | foreignCursor
  deriving DecidableEq, Repr

namespace SearchFault

def message : SearchFault → String
  | .incomplete => "invalid query"
  | .manyOperators key => "invalid query: filter on " ++ key ++ " has more than one operator"
  | .skipWithoutStart key => "invalid query: skip without prefix on " ++ key
  | .startNotText key => "invalid query: prefix on " ++ key ++ " must be a string"
  | .unreadableCursor => "invalid query: bad cursor"
  | .foreignCursor => "invalid query: cursor out of range"

def toError (fault : SearchFault) : Error := .validation fault.message

end SearchFault

namespace Filter

-- A filter names a field, and has one operator at most. A part to skip goes with a beginning, which
-- is a text.
def fault? (f : Filter) : Option SearchFault :=
  if f.key.isEmpty then some .incomplete
  else if 1 < f.operatorCount then some (.manyOperators f.key)
  else if f.skip.isSome && f.start.isNone then some (.skipWithoutStart f.key)
  else if f.start.any (fun v => !v.isString) then some (.startNotText f.key)
  else none

end Filter

namespace SearchRequest

-- The first thing that is wrong with a request.
def fault? (request : SearchRequest) : Option SearchFault :=
  if request.model.isEmpty || request.filters.isEmpty then some .incomplete
  else request.filters.findSome? Filter.fault?

def check (request : SearchRequest) : Except Error Unit :=
  match request.fault? with
  | some fault => .error fault.toError
  | none => .ok ()

end SearchRequest

-- A cursor is the key of an index entry, in base64.
namespace Cursor

def encode (key : Bytes) : String := String.ofList (Base64.encode key)

def decode (cursor : String) : Except Error Bytes :=
  match Base64.decode? cursor.toList with
  | some key => .ok key
  | none => .error SearchFault.unreadableCursor.toError

end Cursor

end DocStore
