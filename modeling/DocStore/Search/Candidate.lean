import DocStore.Record
import DocStore.Search.Fault
import DocStore.Search.Plan
import DocStore.Storage.View

namespace DocStore

-- An id that the index gives for a filter, and the entry that gave it first.
structure Candidate where
  id : String
  key : Bytes
  deriving DecidableEq, Repr

namespace Candidate

-- The ids in scanned entries, each once. `seen` are those given before.
def ofEntries (plan : Plan) (seen : List String) :
    List (Except Error Pair) → List (Except Error Candidate)
  | [] => []
  | .error e :: rest => .error e :: ofEntries plan seen rest
  | .ok (key, _) :: rest =>
    match plan.accept? key with
    | some id =>
      if seen.contains id then ofEntries plan seen rest
      else .ok ⟨id, key⟩ :: ofEntries plan (id :: seen) rest
    | none => ofEntries plan seen rest

end Candidate

namespace Search

-- The documents that the index gives for a filter, behind the entry of a cursor. The cursor must
-- lie in the range of the filter.
def find (view : View) (model : String) (f : Filter) (after : Option Bytes) :
    Except Error (List (Except Error Candidate)) := do
  let plan := Plan.ofFilter model f
  let range ← match after with
    | none => .ok plan.range
    | some key =>
      if plan.range.contains key then .ok ⟨key.successor, plan.range.stop⟩
      else .error SearchFault.foreignCursor.toError
  return if plan.isVoid then [] else Candidate.ofEntries plan [] (view.entries range)

-- Some entry of a scan belongs to a document.
def anyEntry (plan : Plan) (id : String) : List (Except Error Pair) → Except Error Bool
  | [] => .ok false
  | .error e :: _ => .error e
  | .ok (key, _) :: rest => if plan.accept? key == some id then .ok true else anyEntry plan id rest

-- The index holds an entry of a document that satisfies the filter. For one value, the key of that
-- entry is known.
def probe (view : View) (plan : Plan) (id : String) : Except Error Bool :=
  if plan.isVoid then .ok false
  else
    match plan.equal with
    | some encoded => (view.get (Key.entry plan.model plan.path encoded id)).map Option.isSome
    | none => anyEntry plan id (view.entries plan.range)

-- All plans are satisfied as far as the index tells.
def probeAll (view : View) (id : String) : List Plan → Except Error Bool
  | [] => .ok true
  | plan :: rest => do if ← probe view plan id then probeAll view id rest else return false

-- A document satisfies a filter. What the index says is confirmed by the document itself, which
-- also tells texts from numbers.
def isMatch (view : View) (model : String) (f : Filter) (id : String) : Except Error Bool := do
  let plan := Plan.ofFilter model f
  if ← probe view plan id then
    match ← view.get (Key.document model id) with
    | some record => return plan.acceptsDocument (← Record.decode record)
    | none => return false
  else return false

end Search

end DocStore
