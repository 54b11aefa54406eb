import DocStore.Value
import DocStore.Timestamp

namespace DocStore

-- A tree as a serial format holds it: fields keep their order and may repeat.
inductive Wire where
  | null
  | bool (b : Bool)
  | int (n : Int)
  | float (x : Double)
  | text (s : String)
  -- text that was written as plain bytes
  | blob (s : String)
  | list (items : List Wire)
  | map (entries : List (String × Wire))
  -- a well-formed part without a meaning, harmless only where it is skipped
  | unreadable
  deriving BEq, Repr, Inhabited

namespace Wire

mutual

-- The tree that a value is written as.
def ofValue : Value → Wire
  | .null => .null
  | .bool b => .bool b
  | .int n => .int n.toInt
  | .float x => .float x
  | .string s => .text s
  | .array items => .list (ofItems items)
  | .object fields => .map (ofFields fields)

def ofItems : List Value → List Wire
  | [] => []
  | v :: rest => ofValue v :: ofItems rest

def ofFields : Fields → List (String × Wire)
  | [] => []
  | (key, v) :: rest => (key, ofValue v) :: ofFields rest

end

mutual

-- The value that a tree stands for, if its containers are nested at most `nesting` deep. Whole
-- numbers beyond 64 signed bits become floats; of the entries for one key the last wins.
def toValue? (nesting : Nat) : Wire → Option Value
  | .null => some .null
  | .bool b => some (.bool b)
  | .int n =>
    if Word.isSigned n then some (.int (Int64.ofInt n)) else some (.float (Double.ofInt n))
  | .float x => some (.float x)
  | .text s => some (.string s)
  | .blob s => some (.string s)
  | .list items =>
    match nesting with
    | 0 => none
    | nesting + 1 => (toItems? nesting items).map .array
  | .map entries =>
    match nesting with
    | 0 => none
    | nesting + 1 => (toFields? nesting entries).map (fun fields => Value.ofFields fields)
  | .unreadable => none

def toItems? (nesting : Nat) : List Wire → Option (List Value)
  | [] => some []
  | w :: rest => do
    let v ← toValue? nesting w
    let vs ← toItems? nesting rest
    some (v :: vs)

def toFields? (nesting : Nat) : List (String × Wire) → Option Fields
  | [] => some []
  | (key, w) :: rest => do
    let v ← toValue? nesting w
    let vs ← toFields? nesting rest
    some ((key, v) :: vs)

end

-- The parts of a record with the given field names, in that order. A record is a map, in which
-- a known field must not repeat and others are skipped, or a list of the fields in order.
def record? (names : List String) : Wire → Option (List (Option Wire))
  | .map entries =>
    let known := entries.filter (fun e => names.contains e.1)
    if (known.map (·.1)).Nodup then
      some (names.map (fun name => (known.find? (fun e => e.1 == name)).map (·.2)))
    else none
  | .list items =>
    if items.length ≤ names.length then
      some (items.map some ++ List.replicate (names.length - items.length) none)
    else none
  | _ => none

def text? : Wire → Option String
  | .text s => some s
  | .blob s => some s
  | _ => none

-- An unsigned number of 64 bits.
def word? : Wire → Option Nat
  | .int n => if Word.isUnsigned n then some n.toNat else none
  | _ => none

def bool? : Wire → Option Bool
  | .bool b => some b
  | _ => none

-- A part that may be left out, or be null.
def optional {α : Type} (read : Wire → Option α) : Option Wire → Option (Option α)
  | none => some none
  | some .null => some none
  | some w => (read w).map some

def timestamp? : Wire → Option Timestamp
  | .text s => Timestamp.parse? s
  | _ => none

end Wire

end DocStore
