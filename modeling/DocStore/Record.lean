import DocStore.Document
import DocStore.Error
import DocStore.Json
import DocStore.MessagePack

namespace DocStore

-- The formats of stored documents.
inductive Encoding where
  | json
  | messagePack
  deriving DecidableEq, Repr, Inhabited

namespace Encoding

def name : Encoding → String
  | .json => "json"
  | .messagePack => "msgpack"

def ofName? : String → Option Encoding
  | "json" => some .json
  | "msgpack" => some .messagePack
  | _ => none

end Encoding

-- A stored document is a byte that tells the format, followed by the document in it.
namespace Record

def tag : Encoding → UInt8
  | .json => 0x6A
  | .messagePack => 0x6D

def encode (encoding : Encoding) (doc : Document) : Bytes :=
  tag encoding ::
    match encoding with
    | .json => Json.write doc.toWire
    | .messagePack => MessagePack.write doc.toWire

-- Reads either format, whatever format is being written.
def decode : Bytes → Except Error Document
  | [] => .error (.serialization "empty document record")
  | b :: payload =>
    if b = tag .json then
      match (Json.read? payload).bind (Document.ofWire? Json.maxNesting) with
      | some doc => .ok doc
      | none => .error (.serialization "json decode")
    else if b = tag .messagePack then
      match (MessagePack.read? payload).bind (Document.ofWire? MessagePack.maxNesting) with
      | some doc => .ok doc
      | none => .error (.serialization "msgpack decode")
    else
      .error (.serialization ("unknown document encoding tag 0x"
        ++ String.ofList [Bytes.hexDigit (b.toNat / 16), Bytes.hexDigit (b.toNat % 16)]))

end Record

end DocStore
