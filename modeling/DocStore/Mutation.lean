import DocStore.Error
import DocStore.Value

namespace DocStore

-- What can be done to one field without reading it first.
inductive MutationOp where
  | add
  | sub
  | mul
  | div
  | min
  | max
  | set
  deriving DecidableEq, Repr

-- Why a field cannot be changed as asked.
inductive MutationFault where
  | bodyNotObject (typeName : String)
  | notAnExpression (field typeName : String)
  | noOperation (field : String)
  | manyOperations (field : String)
  | unknownOperation (field name : String)
  | badOperand (field typeName : String)
  | notANumber (field : String)
  | divisionByZero (field : String)
  | overflow (field : String)
  deriving DecidableEq, Repr

namespace MutationFault

private def expression (field detail : String) : String :=
  "invalid mutation expression for '" ++ field ++ "': " ++ detail

def message : MutationFault → String
  | .bodyNotObject typeName => "cannot mutate a document whose val is " ++ typeName
  | .notAnExpression field typeName => expression field ("expected object, got " ++ typeName)
  | .noOperation field => expression field "no op given"
  | .manyOperations field => expression field "only one op allowed"
  | .unknownOperation field name => expression field name
  | .badOperand field typeName => "invalid mutation value for '" ++ field ++ "': " ++ typeName
  | .notANumber field => "cannot perform mutation on non-numeric field '" ++ field ++ "'"
  | .divisionByZero field => expression field "division by zero"
  | .overflow field => expression field "integer overflow"

end MutationFault

namespace MutationOp

def ofName? : String → Option MutationOp
  | "add" | "+" => some .add
  | "sub" | "subtract" | "-" => some .sub
  | "mul" | "multiply" | "*" => some .mul
  | "div" | "divide" | "/" => some .div
  | "min" | "minimum" => some .min
  | "max" | "maximum" => some .max
  | "set" => some .set
  | _ => none

-- The exact result on integers; a quotient is rounded toward zero. There is none for a division
-- by zero.
def onIntegers (op : MutationOp) (current operand : Int) : Option Int :=
  match op with
  | .add => some (current + operand)
  | .sub => some (current - operand)
  | .mul => some (current * operand)
  | .div => if operand = 0 then none else some (Int.tdiv current operand)
  | .min => some (Min.min current operand)
  | .max => some (Max.max current operand)
  | .set => some operand

-- A result must fit 64 signed bits.
def applyInt (op : MutationOp) (field : String) (current operand : Int64) :
    Except MutationFault Int64 :=
  match op.onIntegers current.toInt operand.toInt with
  | none => .error (.divisionByZero field)
  | some n =>
    if Word.isSigned n then .ok (Int64.ofInt n) else .error (.overflow field)

def applyFloat (op : MutationOp) (field : String) (current operand : Double) :
    Except MutationFault Double :=
  match op with
  | .add => .ok (current.add operand)
  | .sub => .ok (current.sub operand)
  | .mul => .ok (current.mul operand)
  | .div =>
    if operand.magnitude = 0 then .error (.divisionByZero field) else .ok (current.div operand)
  | .min => .ok (current.minimum operand)
  | .max => .ok (current.maximum operand)
  | .set => .ok operand

-- The new value of a field. A missing field counts as zero; two integers give an integer, and
-- any other numbers a float.
def apply (op : MutationOp) (field : String) (current : Option Value) (operand : Value) :
    Except MutationFault Value :=
  if op = .set then .ok operand
  else if !operand.isNumber then .error (.badOperand field operand.typeName)
  else
    let current := current.getD (.int 0)
    match current, operand with
    | .int a, .int b => (op.applyInt field a b).map .int
    | _, _ =>
      match current.number?, operand.number? with
      | some a, some b => (op.applyFloat field a b).map .float
      | _, _ => .error (.notANumber field)

end MutationOp

namespace Mutation

-- An expression is an object with one field, which names the operation and holds its operand.
def parse (field : String) (expr : Value) : Except MutationFault (MutationOp × Value) :=
  match expr with
  | .object [] => .error (.noOperation field)
  | .object [(name, operand)] =>
    match MutationOp.ofName? name with
    | some op => .ok (op, operand)
    | none => .error (.unknownOperation field name)
  | .object _ => .error (.manyOperations field)
  | other => .error (.notAnExpression field other.typeName)

-- Changes one field.
def applyField (fields : Fields) (field : String) (expr : Value) : Except MutationFault Fields := do
  let (op, operand) ← parse field expr
  let value ← op.apply field (Assoc.get? field fields) operand
  return Assoc.insert field value fields

-- Changes the fields one after the other, as long as no change fails.
def applyAll (fields : Fields) : Fields → Except MutationFault Fields
  | [] => .ok fields
  | (field, expr) :: rest => do
    let fields ← applyField fields field expr
    applyAll fields rest

-- The body after all changes. Nothing but an object can be changed; a body that is missing counts
-- as an empty one.
def apply (base : Value) (mutations : Fields) : Except MutationFault Value :=
  match base with
  | .object fields => (applyAll fields mutations).map .object
  | .null => (applyAll [] mutations).map .object
  | other => .error (.bodyNotObject other.typeName)

end Mutation

end DocStore
