import DocStore.Document

namespace DocStore

-- A condition on one field. Without an operator it asks for the field to be present; `skip` only
-- has a meaning beside the `start` operator.
structure Filter where
  key : String
  equal : Option Value
  greater : Option Value
  less : Option Value
  start : Option Value
  skip : Option Value
  deriving BEq, Repr, Inhabited

-- A search in one model, for the documents that satisfy every filter. A page starts behind the
-- cursor of the page before it.
structure SearchRequest where
  model : String
  filters : List Filter
  cursor : Option String
  limit : Option Nat
  full : Bool
  links : List SearchRequest
  deriving BEq, Repr, Inhabited

-- One page of results: ids, or whole documents where they were asked for.
structure SearchResponse where
  cursor : Option String
  ids : List String
  documents : List Document
  deriving BEq, Repr, Inhabited

private def optionalEntry (name : String) : Option Wire → List (String × Wire)
  | some w => [(name, w)]
  | none => []

namespace Filter

def present (key : String) : Filter := ⟨key, none, none, none, none, none⟩

-- The number of operators that are set.
def operatorCount (f : Filter) : Nat :=
  [f.equal, f.greater, f.less, f.start].countP Option.isSome

def toWire (f : Filter) : Wire :=
  let operator (name : String) (operand : Option Value) :=
    optionalEntry name (operand.map Wire.ofValue)
  .map (("key", .text f.key) :: operator "equal" f.equal ++ operator "greater" f.greater
    ++ operator "less" f.less ++ operator "prefix" f.start ++ operator "skip" f.skip)

-- The filter that a tree holds, where containers are nested at most `nesting` deep.
def ofWire? : Nat → Wire → Option Filter
  | 0, _ => none
  | nesting + 1, w => do
    match ← w.record? ["key", "equal", "greater", "less", "prefix", "skip"] with
    | [some key, equal, greater, less, start, skip] =>
      let operand := Wire.optional (Wire.toValue? nesting)
      some ⟨← key.text?, ← operand equal, ← operand greater, ← operand less, ← operand start,
        ← operand skip⟩
    | _ => none

end Filter

namespace SearchRequest

mutual

-- Absent parts and empty lists are left out.
def toWire : SearchRequest → Wire
  | .mk model filters cursor limit full links =>
    let list (name : String) : List Wire → List (String × Wire)
      | [] => []
      | items => [(name, .list items)]
    .map (("model", .text model) :: list "filters" (filters.map Filter.toWire)
      ++ optionalEntry "cursor" (cursor.map .text)
      ++ optionalEntry "limit" (limit.map (fun n => .int n))
      ++ [("full", .bool full)]
      ++ list "links" (linksToWire links))

def linksToWire : List SearchRequest → List Wire
  | [] => []
  | link :: rest => toWire link :: linksToWire rest

end

-- A list that may be left out, and the level its items are at.
def items? (nesting : Nat) : Option Wire → Option (Nat × List Wire)
  | none => some (0, [])
  | some (.list items) =>
    match nesting with
    | 0 => none
    | nesting + 1 => some (nesting, items)
  | some _ => none

-- The request that a tree holds. `levels` bounds how deeply requests are linked, `nesting` how
-- deeply containers are nested.
def ofWireUpTo? : Nat → Nat → Wire → Option SearchRequest
  | levels + 1, nesting + 1, w => do
    match ← w.record? ["model", "filters", "cursor", "limit", "full", "links"] with
    | [some model, filters, cursor, limit, full, links] =>
      let (filterNesting, filters) ← items? nesting filters
      let (linkNesting, links) ← items? nesting links
      some (.mk (← model.text?) (← filters.mapM (Filter.ofWire? filterNesting))
        (← Wire.optional Wire.text? cursor) (← Wire.optional Wire.word? limit)
        (← match full with
          | some w => w.bool?
          | none => some false)
        (← links.mapM (ofWireUpTo? levels linkNesting)))
    | _ => none
  | _, _, _ => none

def ofWire? (nesting : Nat) : Wire → Option SearchRequest := ofWireUpTo? nesting nesting

end SearchRequest

namespace SearchResponse

def size (r : SearchResponse) : Nat := max r.ids.length r.documents.length

end SearchResponse

end DocStore
