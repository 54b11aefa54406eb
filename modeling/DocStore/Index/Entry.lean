import DocStore.Key

namespace DocStore

-- Texts and numbers are indexed side by side; what an index holds does not tell them apart.
inductive ScalarKind where
  | text
  | number
  deriving DecidableEq, Repr

namespace ScalarKind

def of? : Value → Option ScalarKind
  | .string _ => some .text
  | .int _ => some .number
  | .float _ => some .number
  | _ => none

end ScalarKind

-- One indexed scalar of a document body.
structure IndexEntry where
  path : String
  encoded : Bytes
  kind : ScalarKind
  deriving DecidableEq, Repr

namespace IndexEntry

-- The path of the body itself.
def root : String := "val"

-- Entries are ordered by path, then by what the index holds, then texts before numbers.
def before (a b : IndexEntry) : Bool :=
  if a.path < b.path then true
  else if b.path < a.path then false
  else if a.encoded < b.encoded then true
  else if b.encoded < a.encoded then false
  else a.kind = .text && b.kind = .number

-- Adds an entry in its place, unless it is there already.
def insert (e : IndexEntry) : List IndexEntry → List IndexEntry
  | [] => [e]
  | head :: rest =>
    if e.before head then e :: head :: rest
    else if head.before e then head :: insert e rest
    else head :: rest

def ofLeaf? (leaf : String × Value) : Option IndexEntry := do
  some ⟨leaf.1, ← Key.encode? leaf.2, ← ScalarKind.of? leaf.2⟩

-- The index entries of a body, each once and in order.
def ofBody (val : Value) : List IndexEntry :=
  ((val.leaves root).filterMap ofLeaf?).foldl (fun acc e => insert e acc) []

-- The indexed scalars of a body at one path.
def leavesAt (val : Value) (path : String) : List Value :=
  ((val.leaves root).filter (fun leaf => leaf.1 == path && (Key.encode? leaf.2).isSome)).map (·.2)

end IndexEntry

end DocStore
