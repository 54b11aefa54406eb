import DocStore.Error
import DocStore.Value

namespace DocStore

-- The named types of fields.
inductive Primitive where
  | string
  | int
  | float
  | number
  | bool
  | any
  | object
  | array
  deriving DecidableEq, Repr

namespace Primitive

def name : Primitive → String
  | .string => "string"
  | .int => "int"
  | .float => "float"
  | .number => "number"
  | .bool => "bool"
  | .any => "any"
  | .object => "object"
  | .array => "array"

def ofName? : String → Option Primitive
  | "string" => some .string
  | "int" => some .int
  | "float" => some .float
  | "number" => some .number
  | "bool" => some .bool
  | "any" => some .any
  | "object" => some .object
  | "array" => some .array
  | _ => none

-- The values of a named type. Any number is a float.
def admits : Primitive → Value → Bool
  | .string, .string _ => true
  | .int, .int _ => true
  | .float, .int _ => true
  | .float, .float _ => true
  | .number, .int _ => true
  | .number, .float _ => true
  | .bool, .bool _ => true
  | .any, _ => true
  | .object, .object _ => true
  | .array, .array _ => true
  | _, _ => false

end Primitive

-- The shape of a field. Only fields of a named type may be optional.
inductive Field where
  | primitive (type : Primitive) (optional : Bool)
  | object (fields : List (String × Field))
  | list (item : Field)
  deriving BEq, Repr, Inhabited

-- The fields that a body has, ascending by name.
structure Schema where
  fields : List (String × Field)
  deriving BEq, Repr, Inhabited

-- What is wrong with a schema, or with a body under it. The path tells where.
inductive SchemaFault where
  | specNotObject (path typeName : String)
  | unknownType (path name : String)
  | badListSpec (path : String)
  | badSpec (path typeName : String)
  | mismatch (path expected typeName : String)
  | unknownField (path : String)
  | missingField (path : String)
  deriving DecidableEq, Repr

namespace SchemaFault

private def invalidSpec (path detail : String) : String :=
  "validation error: invalid schema: " ++ path ++ ": " ++ detail

def message : SchemaFault → String
  | .specNotObject path typeName => invalidSpec path ("expected object, got " ++ typeName)
  | .unknownType path name => invalidSpec path ("unknown type '" ++ name ++ "'")
  | .badListSpec path => invalidSpec path "array spec must have exactly one item"
  | .badSpec path typeName =>
    invalidSpec path ("expected type name, object or list, got " ++ typeName)
  | .mismatch path expected typeName =>
    "validation error: " ++ path ++ ": expected " ++ expected ++ ", got " ++ typeName
  | .unknownField path => "validation error: " ++ path ++ ": unknown field"
  | .missingField path => "validation error: " ++ path ++ ": required field is missing"

def toError (fault : SchemaFault) : Error := .validation fault.message

end SchemaFault

-- Splits the mark of an optional field off its type name.
def splitOptional (name : String) : String × Bool :=
  match name.toList.reverse with
  | '?' :: rest => (String.ofList rest.reverse, true)
  | _ => (name, false)

namespace Field

mutual

-- The field that a spec describes: a type name with an optional mark, an object of fields, or a
-- list with the spec of its items.
def compile (path : String) : Value → Except SchemaFault Field
  | .string name =>
    let (base, optional) := splitOptional name
    match Primitive.ofName? base with
    | some type => .ok (.primitive type optional)
    | none => .error (.unknownType path base)
  | .object fields => (compileFields path fields).map .object
  | .array items => compileItem path items
  | other => .error (.badSpec path other.typeName)

def compileItem (path : String) : List Value → Except SchemaFault Field
  | [item] => (compile (path ++ "/0") item).map .list
  | _ => .error (.badListSpec path)

def compileFields (path : String) : Fields → Except SchemaFault (List (String × Field))
  | [] => .ok []
  | (name, spec) :: rest => do
    let field ← compile (path ++ "/" ++ name) spec
    let fields ← compileFields path rest
    return (name, field) :: fields

end

-- The first field of a body that its schema does not know.
def unknown? (fields : List (String × Field)) (body : Fields) : Option String :=
  (body.find? (fun e => (Assoc.get? e.1 fields).isNone)).map (·.1)

-- A field that need not be there.
def isOptional : Field → Bool
  | .primitive _ optional => optional
  | _ => false

-- Checks the items of a list one after the other; the check is told the position of each.
def checkEach (check : Nat → Value → Except SchemaFault Unit) :
    Nat → List Value → Except SchemaFault Unit
  | _, [] => .ok ()
  | index, value :: rest => do
    check index value
    checkEach check (index + 1) rest

mutual

-- Checks a value: unknown fields of an object first, then its fields in the order of their names.
def check (path : String) : Field → Value → Except SchemaFault Unit
  | .primitive type optional, value =>
    if (value.isNull && optional) || type.admits value then .ok ()
    else .error (.mismatch path type.name value.typeName)
  | .object fields, value =>
    match value with
    | .object body =>
      match unknown? fields body with
      | some name => .error (.unknownField (path ++ "/" ++ name))
      | none => checkFields path fields body
    | other => .error (.mismatch path "object" other.typeName)
  | .list item, value =>
    match value with
    | .array items =>
      checkEach (fun index v => check (path ++ "/" ++ toString index) item v) 0 items
    | other => .error (.mismatch path "array" other.typeName)

def checkFields (path : String) : List (String × Field) → Fields → Except SchemaFault Unit
  | [], _ => .ok ()
  | (name, field) :: rest, body =>
    let child := path ++ "/" ++ name
    match Assoc.get? name body with
    | none =>
      if field.isOptional then checkFields path rest body else .error (.missingField child)
    | some value => do
      check child field value
      checkFields path rest body

end

end Field

namespace Schema

-- Compiles the schema of a model.
def compile (spec : Value) : Except SchemaFault Schema :=
  match spec with
  | .object fields => (Field.compileFields "/val/schema" fields).map Schema.mk
  | other => .error (.specNotObject "/val/schema" other.typeName)

-- Checks a document body.
def validate (schema : Schema) (val : Value) : Except SchemaFault Unit :=
  Field.check "/val" (.object schema.fields) val

end Schema

end DocStore
