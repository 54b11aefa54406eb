import DocStore.Document
import DocStore.Index.Entry
import DocStore.KeyRange
import DocStore.Request

namespace DocStore

-- A value that indexed values are compared with.
inductive Bound where
  | text (bytes : Bytes)
  | number (x : Double)
  deriving DecidableEq, Repr

namespace Bound

def of? : Value → Option Bound
  | .string s => some (.text (Bytes.ofString s))
  | other => other.number?.map .number

-- Texts compare by their bytes. Numbers compare as numbers, where a NaN takes no part.
def isBelow (bound : Bound) (encoded : Bytes) : Bool :=
  match bound with
  | .text bytes => (Bytes.toString? encoded).isSome && decide (bytes < encoded)
  | .number x => (Key.decodeNumber? encoded).any x.less

def isAbove (bound : Bound) (encoded : Bytes) : Bool :=
  match bound with
  | .text bytes => (Bytes.toString? encoded).isSome && decide (encoded < bytes)
  | .number x => (Key.decodeNumber? encoded).any (fun y => y.less x)

end Bound

-- What an indexed value must satisfy beyond lying in the range that is scanned.
inductive Comparison where
  | anything
  | above (bound : Bound)
  | below (bound : Bound)
  deriving DecidableEq, Repr

def Comparison.admits : Comparison → Bytes → Bool
  | .anything, _ => true
  | .above bound, encoded => bound.isBelow encoded
  | .below bound, encoded => bound.isAbove encoded

-- How a filter is answered from the index: by a scan of one range.
structure Plan where
  model : String
  path : String
  range : KeyRange
  comparison : Comparison
  -- the kind that every matching value has, unless presence is all that is asked for
  kind : Option ScalarKind
  -- the indexed form of the one value that matches, if there is one
  equal : Option Bytes
  -- nothing can match
  isVoid : Bool
  deriving DecidableEq, Repr

namespace Plan

-- The path that a filter means: the name of the body may be left out in front.
def indexPath (key : String) : String :=
  if key == IndexEntry.root || (IndexEntry.root ++ ".").toList.isPrefixOf key.toList then key
  else IndexEntry.root ++ "." ++ key

-- The scan of all entries of a field.
def ofField (model path : String) : Plan :=
  ⟨model, path, KeyRange.ofPrefix (Key.field model path), .anything, none, none, false⟩

-- Values that are never indexed equal nothing.
def equalTo (plan : Plan) (operand : Value) : Plan :=
  let plan := { plan with kind := ScalarKind.of? operand }
  match Key.encode? operand with
  | some encoded =>
    { plan with
      range := KeyRange.ofPrefix (Key.fieldValue plan.model plan.path encoded)
      equal := some encoded }
  | none => { plan with isVoid := true }

-- Leaves out the texts up to, and with, the given one.
def skipping (plan : Plan) (skip : Value) : Plan :=
  match Bound.of? skip with
  | some (.text bytes) =>
    let next := Bytes.afterPrefix (Key.fieldValue plan.model plan.path bytes)
    if plan.range.start < next then { plan with range := ⟨next, plan.range.stop⟩ } else plan
  | _ => { plan with isVoid := true }

def startingWith (plan : Plan) (start : String) (skip : Option Value) : Plan :=
  let plan :=
    { plan with
      kind := some .text
      range := KeyRange.ofPrefix (Key.field plan.model plan.path ++ Bytes.ofString start) }
  match skip with
  | some skip => plan.skipping skip
  | none => plan

def comparing (plan : Plan) (comparison : Bound → Comparison) (operand : Value) : Plan :=
  let plan := { plan with kind := ScalarKind.of? operand }
  match Bound.of? operand with
  | some bound => { plan with comparison := comparison bound }
  | none => { plan with isVoid := true }

-- The operator that a plan goes by, where several are set.
def ofOperator (plan : Plan) (f : Filter) : Plan :=
  match f.equal, f.start, f.greater, f.less with
  | some operand, _, _, _ => plan.equalTo operand
  | none, some (.string start), _, _ => plan.startingWith start f.skip
  | none, _, some operand, _ => plan.comparing .above operand
  | none, _, none, some operand => plan.comparing .below operand
  | none, _, none, none => plan

def ofFilter (model : String) (f : Filter) : Plan :=
  let plan := ofOperator (ofField model (indexPath f.key)) f
  { plan with isVoid := plan.isVoid || plan.range.isInverted }

-- The id in the key of an entry that satisfies the filter. A number may hold the separating byte,
-- so entries of other values can lie among those of one value.
def accept? (plan : Plan) (key : Bytes) : Option String :=
  match Key.splitEntry? (Key.field plan.model plan.path) key with
  | some (encoded, id) =>
    if plan.equal.all (fun e => e == encoded) && plan.comparison.admits encoded then
      Bytes.toString? id
    else none
  | none => none

-- One scalar of a document satisfies the filter.
def acceptsLeaf (plan : Plan) (id : String) (leaf : Value) : Bool :=
  (plan.kind.isNone || ScalarKind.of? leaf == plan.kind) &&
    match Key.encode? leaf with
    | some encoded =>
      let key := Key.entry plan.model plan.path encoded id
      plan.range.contains key && plan.accept? key == some id
    | none => false

-- Some scalar of a document at the path satisfies the filter.
def acceptsDocument (plan : Plan) (doc : Document) : Bool :=
  !plan.isVoid && (IndexEntry.leavesAt doc.val plan.path).any (plan.acceptsLeaf doc.id)

end Plan

end DocStore
