import DocStore.Document
import DocStore.Error
import DocStore.Identifier
import DocStore.Schema
import DocStore.SortedMap

namespace DocStore

-- How a field is indexed.
inductive IndexKind where
  | unique
  | plain
  deriving DecidableEq, Repr

namespace IndexKind

def ofName? : String → Option IndexKind
  | "unique" => some .unique
  | "index" => some .plain
  | _ => none

end IndexKind

-- A compiled model: the shape of its documents, the declared indexes by path, and the reactors
-- that its documents go through.
structure Model where
  id : String
  schema : Option Schema
  index : List (String × IndexKind)
  reactors : List String
  deriving BEq, Repr, Inhabited

-- Why a document defines no model. The path tells where.
inductive ModelFault where
  | mismatch (path expected typeName : String)
  | badIndexKind (path : String)
  | badSchema (fault : SchemaFault)
  deriving DecidableEq, Repr

namespace ModelFault

def message : ModelFault → String
  | .mismatch path expected typeName =>
    "validation error: " ++ path ++ ": expected " ++ expected ++ ", got " ++ typeName
  | .badIndexKind path => "validation error: " ++ path ++ ": expected \"unique\" or \"index\""
  | .badSchema fault => fault.message

def toError (fault : ModelFault) : Error := .validation fault.message

end ModelFault

namespace Model

-- A model that asks for nothing.
def bare (id : String) : Model := ⟨id, none, [], []⟩

-- Models and reactors are documents too; their models are built in.
def isBuiltIn (id : String) : Bool := id == modelOfModels || id == modelOfReactors

def builtIn? (id : String) : Option Model := if isBuiltIn id then some (bare id) else none

-- A part of a body that is there and not null.
private def part? (fields : Fields) (name : String) : Option Value :=
  match Assoc.get? name fields with
  | some .null => none
  | other => other

private def compileSchema : Option Value → Except ModelFault (Option Schema)
  | none => .ok none
  | some spec => ((Schema.compile spec).map some).mapError .badSchema

private def compileIndex : Fields → Except ModelFault (List (String × IndexKind))
  | [] => .ok []
  | (path, kind) :: rest =>
    match kind.string?.bind IndexKind.ofName? with
    | none => .error (.badIndexKind ("/val/index/" ++ path))
    | some kind => do
      let entries ← compileIndex rest
      return ("val." ++ path, kind) :: entries

private def compileReactors (index : Nat) : List Value → Except ModelFault (List String)
  | [] => .ok []
  | item :: rest =>
    match item with
    | .string id => do
      let ids ← compileReactors (index + 1) rest
      return id :: ids
    | other => .error (.mismatch ("/val/reactors/" ++ toString index) "string" other.typeName)

-- Compiles the body of a model document: its schema, then its indexes, then its reactors.
def compileBody (id : String) (val : Value) : Except ModelFault Model :=
  match val with
  | .null => .ok (bare id)
  | .object fields => do
    let schema ← compileSchema (part? fields "schema")
    let index ← match part? fields "index" with
      | none => .ok []
      | some (.object entries) => compileIndex entries
      | some other => .error (.mismatch "/val/index" "object" other.typeName)
    let reactors ← match part? fields "reactors" with
      | none => .ok []
      | some (.array items) => compileReactors 0 items
      | some other => .error (.mismatch "/val/reactors" "array" other.typeName)
    return ⟨id, schema, index, reactors⟩
  | other => .error (.mismatch "/val" "object" other.typeName)

-- The model that a document defines.
def ofDocument (doc : Document) : Except Error Model := do
  Identifier.checkModelName doc.id
  (compileBody doc.id doc.val).mapError ModelFault.toError

def uniquePaths (model : Model) : List String :=
  (model.index.filter (fun e => e.2 == .unique)).map (·.1)

def isUnique (model : Model) (path : String) : Bool :=
  Assoc.get? path model.index == some .unique

end Model

-- Compiled models, kept from one use to the next. Each id has a generation that counts how often
-- its entry was made void, so that a model compiled from an older document is not kept.
structure ModelCache where
  entries : SortedMap String Model
  generations : SortedMap String Nat
  deriving Inhabited

namespace ModelCache

def empty : ModelCache := ⟨SortedMap.empty, SortedMap.empty⟩

def get? (cache : ModelCache) (id : String) : Option Model := cache.entries.get? id

def generation (cache : ModelCache) (id : String) : Nat := (cache.generations.get? id).getD 0

def size (cache : ModelCache) : Nat := cache.entries.size

-- Keeps a model compiled under a generation, unless that is past or another one is kept already.
-- The answer is the model to use.
def insert (cache : ModelCache) (model : Model) (generation : Nat) : Model × ModelCache :=
  let current := cache.generation model.id
  let noted := { cache with generations := cache.generations.insert model.id current }
  if current ≠ generation then (model, noted)
  else
    match cache.entries.get? model.id with
    | some kept => (kept, noted)
    | none => (model, { noted with entries := cache.entries.insert model.id model })

def invalidate (cache : ModelCache) (id : String) : ModelCache :=
  ⟨cache.entries.erase id, cache.generations.insert id (cache.generation id + 1)⟩

-- Makes every entry void. Generations that were never asked for do not start to count.
def clear (cache : ModelCache) : ModelCache :=
  ⟨SortedMap.empty, cache.generations.mapValues (· + 1)⟩

end ModelCache

end DocStore
