import DocStore.Error
import DocStore.Text.Escape

-- The names of documents and models. They become parts of keys, which is why few characters
-- are allowed in them.
namespace DocStore.Identifier

def maxBytes : Nat := 64

def isAllowed (c : Char) : Bool := c.isAlphanum || c == '.' || c == '-'

-- What may be wrong with one name.
inductive Fault where
  | missing
  | tooLong
  | badCharacter (c : Char)
  deriving DecidableEq, Repr

def Fault.message : Fault → String
  | .missing => "must not be empty"
  | .tooLong => "must be at most " ++ toString maxBytes ++ " bytes"
  | .badCharacter c => "has invalid character: " ++ String.ofList (Text.escapeChar c)

def fault? (name : String) : Option Fault :=
  if name.isEmpty then some .missing
  else if maxBytes < name.utf8ByteSize then some .tooLong
  else (name.toList.find? (fun c => !isAllowed c)).map .badCharacter

-- Accepts a name, or says what is wrong with it.
def check (label name : String) : Except Error Unit :=
  match fault? name with
  | none => .ok ()
  | some fault => .error (.validation ("validation error: /" ++ label ++ " " ++ fault.message))

-- A document is addressed by the name of its model and its own.
def checkPath (model id : String) : Except Error Unit := do
  check "model" model
  check "id" id

-- The parts of a name between its dots.
def labels : List Char → List (List Char)
  | [] => [[]]
  | c :: rest =>
    if c = '.' then [] :: labels rest
    else
      match labels rest with
      | [] => [[c]]
      | first :: others => (c :: first) :: others

def minLabels : Nat := 3

-- A model is named like a domain, by at least three labels of which none is empty.
def isModelName (id : String) : Bool :=
  let parts := labels id.toList
  decide (minLabels ≤ parts.length) && parts.all (fun p => !p.isEmpty)

def checkModelName (id : String) : Except Error Unit :=
  if isModelName id then .ok ()
  else .error (.validation "validation error: /id must be a domain, like com.example.Book")

end DocStore.Identifier
