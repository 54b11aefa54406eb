namespace DocStore

-- Keys and records are byte strings, ordered lexicographically.
abbrev Bytes := List UInt8

namespace Bytes

instance : Std.IsLinearOrder Bytes := inferInstance

instance : Std.LawfulOrderLT Bytes := inferInstance

def ofString (text : String) : Bytes := text.toUTF8.toList

def toString? (bytes : Bytes) : Option String := String.fromUTF8? ⟨bytes.toArray⟩

-- The least byte string above every extension of the given one. No byte string is above
-- every extension of a run of 0xFF bytes; the empty answer then stands for "no bound".
def afterPrefix : Bytes → Bytes
  | [] => []
  | b :: rest =>
    match afterPrefix rest with
    | [] => if b = 0xFF then [] else [b + 1]
    | next => b :: next

-- The least byte string above the given one.
def successor (bytes : Bytes) : Bytes := bytes ++ [0]

-- The part of a byte string that follows a given beginning.
def dropPrefix? : Bytes → Bytes → Option Bytes
  | [], bytes => some bytes
  | _ :: _, [] => none
  | p :: ps, b :: rest => if p = b then dropPrefix? ps rest else none

-- Splits at the last occurrence of a byte, which belongs to neither part.
def splitLast? (separator : UInt8) : Bytes → Option (Bytes × Bytes)
  | [] => none
  | b :: rest =>
    match splitLast? separator rest with
    | some (before, after) => some (b :: before, after)
    | none => if b = separator then some ([], rest) else none

-- Eight bytes, least significant first.
def ofWord (word : UInt64) : Bytes :=
  (List.range 8).map (fun i => (word >>> (8 * i).toUInt64).toUInt8)

def toWord (bytes : Bytes) : UInt64 :=
  bytes.foldr (fun b acc => acc <<< 8 ||| b.toUInt64) 0

def hexDigit (n : Nat) : Char :=
  if n < 10 then Char.ofNat (48 + n) else Char.ofNat (87 + n)

-- A byte that stands for itself in a message is a printable ASCII character.
def isPlain (b : UInt8) : Bool := 32 ≤ b && b ≤ 126

-- Readable text of a byte string: plain bytes as they are, others as two hexadecimal digits.
def escape (bytes : Bytes) : String :=
  String.ofList (bytes.flatMap (fun b =>
    if isPlain b then [Char.ofNat b.toNat]
    else ['\\', 'x', hexDigit (b.toNat / 16), hexDigit (b.toNat % 16)]))

end Bytes

end DocStore
