import DocStore.Assoc
import DocStore.Double
import DocStore.Word

namespace DocStore

-- A node of a document body. The fields of an object ascend by key.
inductive Value where
  | null
  | bool (b : Bool)
  | int (n : Int64)
  | float (x : Double)
  | string (s : String)
  | array (items : List Value)
  | object (fields : List (String × Value))
  deriving BEq, Repr, Inhabited

abbrev Fields := List (String × Value)

namespace Value

def typeName : Value → String
  | .null => "Null"
  | .bool _ => "Bool"
  | .int _ => "Int"
  | .float _ => "Float"
  | .string _ => "String"
  | .array _ => "Array"
  | .object _ => "Object"

def isNull : Value → Bool
  | .null => true
  | _ => false

def isNumber : Value → Bool
  | .int _ => true
  | .float _ => true
  | _ => false

def isString : Value → Bool
  | .string _ => true
  | _ => false

def bool? : Value → Option Bool
  | .bool b => some b
  | _ => none

def int? : Value → Option Int64
  | .int n => some n
  | _ => none

-- The number that a value is, where an integer counts as the nearest floating-point number.
def number? : Value → Option Double
  | .int n => some (Double.ofInt n.toInt)
  | .float x => some x
  | _ => none

def string? : Value → Option String
  | .string s => some s
  | _ => none

def array? : Value → Option (List Value)
  | .array items => some items
  | _ => none

def object? : Value → Option Fields
  | .object fields => some fields
  | _ => none

-- The value of a field of an object.
def get? (v : Value) (key : String) : Option Value := v.object?.bind (Assoc.get? key)

-- The object in which the last entry given for a key wins.
def ofFields (entries : List (String × Value)) : Value := .object (Assoc.ofList entries)

mutual

-- Equality of values. Numbers of different types differ, and floats compare as numbers do,
-- so that a value that holds a NaN differs from itself.
def equals : Value → Value → Bool
  | .null, .null => true
  | .bool a, .bool b => a == b
  | .int a, .int b => a == b
  | .float a, .float b => a.equals b
  | .string a, .string b => a == b
  | .array a, .array b => equalItems a b
  | .object a, .object b => equalFields a b
  | _, _ => false

def equalItems : List Value → List Value → Bool
  | [], [] => true
  | a :: as, b :: bs => a.equals b && equalItems as bs
  | _, _ => false

def equalFields : Fields → Fields → Bool
  | [], [] => true
  | (k, a) :: as, (l, b) :: bs => k == l && a.equals b && equalFields as bs
  | _, _ => false

end

mutual

-- The scalars of a tree with their paths, depth first. A field extends the path of its object;
-- an item has the path of its array.
def leaves (path : String) : Value → List (String × Value)
  | .array items => itemLeaves path items
  | .object fields => fieldLeaves path fields
  | leaf => [(path, leaf)]

def itemLeaves (path : String) : List Value → List (String × Value)
  | [] => []
  | v :: rest => leaves path v ++ itemLeaves path rest

def fieldLeaves (path : String) : Fields → List (String × Value)
  | [] => []
  | (key, v) :: rest => leaves (path ++ "." ++ key) v ++ fieldLeaves path rest

end

mutual

-- How deeply containers are nested: none in a scalar, one in an empty container.
def depth : Value → Nat
  | .array items => itemsDepth items + 1
  | .object fields => fieldsDepth fields + 1
  | _ => 0

def itemsDepth : List Value → Nat
  | [] => 0
  | v :: rest => max v.depth (itemsDepth rest)

def fieldsDepth : Fields → Nat
  | [] => 0
  | (_, v) :: rest => max v.depth (fieldsDepth rest)

end

end Value

end DocStore
