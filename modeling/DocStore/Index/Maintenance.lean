import DocStore.Index.Entry
import DocStore.Model
import DocStore.Record
import DocStore.Storage.View
import DocStore.Text.Lossy

namespace DocStore

-- Keeps the index entries of documents, and the claims on values of unique fields, up to date. The
-- writes are given to the transaction that writes the document.
namespace Index

-- The writes that take a document out of the index. A claim is given up only by its holder.
def removeEntries (view : View) (model : Model) (doc : Document) :
    List IndexEntry → Except Error (List Write)
  | [] => .ok []
  | e :: rest => do
    let claim := Key.claim doc.model e.path e.encoded
    let held ←
      if model.isUnique e.path then (view.get claim).map (· == some (Bytes.ofString doc.id))
      else .ok false
    let writes ← removeEntries view model doc rest
    return (Key.entry doc.model e.path e.encoded doc.id, none) ::
      (if held then (claim, none) :: writes else writes)

def remove (view : View) (model : Model) (doc : Document) : Except Error (List Write) :=
  removeEntries view model doc (IndexEntry.ofBody doc.val)

-- A document has a value of the same kind at the same path. An owner without a readable document
-- counts as having it.
def holdsValue (view : View) (model : String) (owner : Bytes) (e : IndexEntry) :
    Except Error Bool :=
  match Bytes.toString? owner with
  | none => .ok true
  | some id => do
    match ← view.get (Key.document model id) with
    | none => return true
    | some record =>
      let doc ← Record.decode record
      return (IndexEntry.leavesAt doc.val e.path).any (fun leaf =>
        ScalarKind.of? leaf == some e.kind && Key.encode? leaf == some e.encoded)

-- The value of a unique field has another holder.
def takenError (e : IndexEntry) (owner : Bytes) : Error :=
  .conflict ("unique index " ++ e.path ++ " already contains this value (held by "
    ++ Text.lossy owner ++ ")")

-- An owner other than the document itself must not hold the value.
def checkOwner (view : View) (doc : Document) (e : IndexEntry) (owner : Bytes) :
    Except Error Unit := do
  if owner ≠ Bytes.ofString doc.id then
    if ← holdsValue view doc.model owner e then .error (takenError e owner)

def checkOwners (view : View) (doc : Document) (e : IndexEntry) :
    List (Except Error Pair) → Except Error Unit
  | [] => .ok ()
  | .error error :: _ => .error error
  | .ok (key, _) :: rest => do
    match Key.splitEntry? (Key.field doc.model e.path) key with
    | some (encoded, owner) => if encoded = e.encoded then checkOwner view doc e owner
    | none => pure ()
    checkOwners view doc e rest

-- Nobody else holds a value: neither the one who claimed it, nor one whose entry is in the index. A
-- number may hold the separating byte, so entries of other values can lie among those of the value.
def checkUnique (view : View) (doc : Document) (e : IndexEntry) : Except Error Unit := do
  match ← view.get (Key.claim doc.model e.path e.encoded) with
  | some owner => checkOwner view doc e owner
  | none => pure ()
  checkOwners view doc e
    (view.entries (KeyRange.ofPrefix (Key.fieldValue doc.model e.path e.encoded)))

def checkAll (view : View) (doc : Document) : List IndexEntry → Except Error Unit
  | [] => .ok ()
  | e :: rest => do
    checkUnique view doc e
    checkAll view doc rest

-- The writes that put a document into the index, once no value of a unique field is taken.
def add (view : View) (model : Model) (doc : Document) : Except Error (List Write) := do
  let entries := IndexEntry.ofBody doc.val
  checkAll view doc (entries.filter (fun e => model.isUnique e.path))
  return entries.flatMap (fun e =>
    let write : Write := (Key.entry doc.model e.path e.encoded doc.id, some Key.entryMarker)
    if model.isUnique e.path then
      [(Key.claim doc.model e.path e.encoded, some (Bytes.ofString doc.id)), write]
    else [write])

end Index

end DocStore
