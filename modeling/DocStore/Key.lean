import DocStore.Bytes
import DocStore.Value

-- Where documents, index entries and claims of unique values are kept. A byte that no text contains
-- separates the parts of a key, so that each kind of key tells its parts apart.
namespace DocStore.Key

def separator : UInt8 := 0xFF

def documentTag : UInt8 := 0x6F
def entryTag : UInt8 := 0x66
def claimTag : UInt8 := 0x75

private def parts (tag : UInt8) (segments : List Bytes) : Bytes :=
  tag :: separator :: segments.flatMap (fun s => s ++ [separator])

-- What the keys of all documents of a model begin with.
def documents (model : String) : Bytes := parts documentTag [Bytes.ofString model]

def document (model id : String) : Bytes :=
  parts documentTag [Bytes.ofString model, Bytes.ofString id]

-- What all index entries of a field begin with.
def field (model path : String) : Bytes :=
  parts entryTag [Bytes.ofString model, Bytes.ofString path]

-- What all index entries of one value of a field begin with.
def fieldValue (model path : String) (encoded : Bytes) : Bytes :=
  field model path ++ encoded ++ [separator]

def entry (model path : String) (encoded : Bytes) (id : String) : Bytes :=
  fieldValue model path encoded ++ Bytes.ofString id

-- The key whose writer holds a value of a unique field.
def claim (model path : String) (encoded : Bytes) : Bytes :=
  parts claimTag [Bytes.ofString model, Bytes.ofString path] ++ encoded

-- What an index entry stores; all that it says is in its key.
def entryMarker : Bytes := [0]

-- The encoded value and the id in the key of an index entry, behind the part that tells the field.
def splitEntry? (start key : Bytes) : Option (Bytes × Bytes) :=
  (Bytes.dropPrefix? start key).bind (Bytes.splitLast? separator)

-- Longer texts are not indexed.
def maxTextBytes : Nat := 128

-- A number as an index holds it.
def encodeNumber (x : Double) : Bytes := Bytes.ofWord x.bits

def decodeNumber? (bytes : Bytes) : Option Double :=
  if bytes.length = 8 then some ⟨Bytes.toWord bytes⟩ else none

-- A scalar as an index holds it: short texts as they are, and numbers as floats.
def encode? : Value → Option Bytes
  | .string s =>
    let bytes := Bytes.ofString s
    if bytes.length < maxTextBytes ∧ separator ∉ bytes then some bytes else none
  | .int n => some (encodeNumber (Double.ofInt n.toInt))
  | .float x => some (encodeNumber x)
  | _ => none

end DocStore.Key
