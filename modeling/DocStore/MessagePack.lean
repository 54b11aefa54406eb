import DocStore.Bytes
import DocStore.Wire

-- The MessagePack form of a tree: `MessagePack.write` and `MessagePack.read?`.
namespace DocStore.MessagePack

-- A number in a given count of bytes, most significant first.
def bigEndian : Nat → Nat → Bytes
  | 0, _ => []
  | count + 1, n => ((n >>> (8 * count)) % 256).toUInt8 :: bigEndian count n

def ofBigEndian (bytes : Bytes) : Nat := bytes.foldl (fun n b => 256 * n + b.toNat) 0

section Write

-- Integers take the shortest form, which is unsigned from zero on.
def writeInt (n : Int) : Bytes :=
  if 0 ≤ n then
    let m := n.toNat
    if m < 128 then [m.toUInt8]
    else if m < 0x100 then 0xCC :: bigEndian 1 m
    else if m < 0x10000 then 0xCD :: bigEndian 2 m
    else if m < 0x100000000 then 0xCE :: bigEndian 4 m
    else 0xCF :: bigEndian 8 m
  else if -32 ≤ n then [(0x100 + n).toNat.toUInt8]
  else if -0x80 ≤ n then 0xD0 :: bigEndian 1 (0x100 + n).toNat
  else if -0x8000 ≤ n then 0xD1 :: bigEndian 2 (0x10000 + n).toNat
  else if -0x80000000 ≤ n then 0xD2 :: bigEndian 4 (0x100000000 + n).toNat
  else 0xD3 :: bigEndian 8 (0x10000000000000000 + n).toNat

def writeText (s : String) : Bytes :=
  let bytes := Bytes.ofString s
  let size := bytes.length
  let head :=
    if size < 32 then [0xA0 + size.toUInt8]
    else if size < 0x100 then 0xD9 :: bigEndian 1 size
    else if size < 0x10000 then 0xDA :: bigEndian 2 size
    else 0xDB :: bigEndian 4 size
  head ++ bytes

def writeListHead (size : Nat) : Bytes :=
  if size < 16 then [0x90 + size.toUInt8]
  else if size < 0x10000 then 0xDC :: bigEndian 2 size
  else 0xDD :: bigEndian 4 size

def writeMapHead (size : Nat) : Bytes :=
  if size < 16 then [0x80 + size.toUInt8]
  else if size < 0x10000 then 0xDE :: bigEndian 2 size
  else 0xDF :: bigEndian 4 size

mutual

def write : Wire → Bytes
  | .null => [0xC0]
  | .bool false => [0xC2]
  | .bool true => [0xC3]
  | .int n => writeInt n
  | .float x => 0xCB :: bigEndian 8 x.bits.toNat
  | .text s => writeText s
  | .blob s => writeText s
  | .list items => writeListHead items.length ++ writeItems items
  | .map entries => writeMapHead entries.length ++ writeEntries entries
  | .unreadable => [0xC0]

def writeItems : List Wire → Bytes
  | [] => []
  | w :: rest => write w ++ writeItems rest

def writeEntries : List (String × Wire) → Bytes
  | [] => []
  | (key, w) :: rest => writeText key ++ write w ++ writeEntries rest

end

end Write

section Read

-- A given count of bytes, and what follows them.
def splitAt? (count : Nat) (bytes : Bytes) : Option (Bytes × Bytes) :=
  if count ≤ bytes.length then some (bytes.splitAt count) else none

def readWord (count : Nat) (bytes : Bytes) : Option (Nat × Bytes) :=
  (splitAt? count bytes).map (fun (word, rest) => (ofBigEndian word, rest))

def signed (bits : Nat) (n : Nat) : Int :=
  if n < 1 <<< (bits - 1) then n else (n : Int) - (1 <<< bits : Nat)

-- A number of 32 bits, which every number of 64 bits can hold.
def widen (single : Nat) : Double :=
  let fraction := single % 0x800000
  let exponent := single / 0x800000 % 0x100
  let magnitude :=
    if exponent = 0 then Double.nearestMagnitude fraction (1 <<< 149)
    else if exponent = 255 then Double.infiniteMagnitude + fraction <<< 29
    else (exponent + 896) * Double.exponentUnit + fraction <<< 29
  Double.ofMagnitude (decide (0x80000000 ≤ single)) magnitude

def readText (wrap : String → Wire) (size : Nat) (bytes : Bytes) : Option (Wire × Bytes) :=
  (splitAt? size bytes).map (fun (text, rest) =>
    ((Bytes.toString? text).elim .unreadable wrap, rest))

-- An extension has no meaning here; its type is read and what it holds is left.
def readExtension (sizeBytes : Nat) (bytes : Bytes) : Option (Wire × Bytes) := do
  let (_, rest) ← splitAt? sizeBytes bytes
  let (_, rest) ← splitAt? 1 rest
  some (.unreadable, rest)

mutual

-- A tree at the start of the bytes, and what follows it. Containers may be nested `nesting` deep;
-- `fuel` bounds the number of steps.
def readTree (nesting : Nat) : Nat → Bytes → Option (Wire × Bytes)
  | 0, _ => none
  | _ + 1, [] => none
  | fuel + 1, b :: rest =>
    let list (size : Nat) (rest : Bytes) : Option (Wire × Bytes) :=
      match nesting with
      | 0 => none
      | nesting + 1 =>
        (readItems nesting fuel size rest).map (fun (items, rest) => (.list items, rest))
    let map (size : Nat) (rest : Bytes) : Option (Wire × Bytes) :=
      match nesting with
      | 0 => none
      | nesting + 1 =>
        (readEntries nesting fuel size rest).map (fun (entries, rest) =>
          match entries with
          | some entries => (.map entries, rest)
          | none => (.unreadable, rest))
    let tag := b.toNat
    if tag < 0x80 then some (.int tag, rest)
    else if tag < 0x90 then map (tag - 0x80) rest
    else if tag < 0xA0 then list (tag - 0x90) rest
    else if tag < 0xC0 then readText .text (tag - 0xA0) rest
    else if 0xE0 ≤ tag then some (.int ((tag : Int) - 256), rest)
    else
      match tag with
      | 0xC0 => some (.null, rest)
      | 0xC2 => some (.bool false, rest)
      | 0xC3 => some (.bool true, rest)
      | 0xC4 => (readWord 1 rest).bind (fun (size, rest) => readText .blob size rest)
      | 0xC5 => (readWord 2 rest).bind (fun (size, rest) => readText .blob size rest)
      | 0xC6 => (readWord 4 rest).bind (fun (size, rest) => readText .blob size rest)
      | 0xC7 => readExtension 1 rest
      | 0xC8 => readExtension 2 rest
      | 0xC9 => readExtension 4 rest
      | 0xCA => (readWord 4 rest).map (fun (n, rest) => (.float (widen n), rest))
      | 0xCB => (readWord 8 rest).map (fun (n, rest) => (.float ⟨UInt64.ofNat n⟩, rest))
      | 0xCC => (readWord 1 rest).map (fun (n, rest) => (.int n, rest))
      | 0xCD => (readWord 2 rest).map (fun (n, rest) => (.int n, rest))
      | 0xCE => (readWord 4 rest).map (fun (n, rest) => (.int n, rest))
      | 0xCF => (readWord 8 rest).map (fun (n, rest) => (.int n, rest))
      | 0xD0 => (readWord 1 rest).map (fun (n, rest) => (.int (signed 8 n), rest))
      | 0xD1 => (readWord 2 rest).map (fun (n, rest) => (.int (signed 16 n), rest))
      | 0xD2 => (readWord 4 rest).map (fun (n, rest) => (.int (signed 32 n), rest))
      | 0xD3 => (readWord 8 rest).map (fun (n, rest) => (.int (signed 64 n), rest))
      | 0xD4 | 0xD5 | 0xD6 | 0xD7 | 0xD8 => readExtension 0 rest
      | 0xD9 => (readWord 1 rest).bind (fun (size, rest) => readText .text size rest)
      | 0xDA => (readWord 2 rest).bind (fun (size, rest) => readText .text size rest)
      | 0xDB => (readWord 4 rest).bind (fun (size, rest) => readText .text size rest)
      | 0xDC => (readWord 2 rest).bind (fun (size, rest) => list size rest)
      | 0xDD => (readWord 4 rest).bind (fun (size, rest) => list size rest)
      | 0xDE => (readWord 2 rest).bind (fun (size, rest) => map size rest)
      | 0xDF => (readWord 4 rest).bind (fun (size, rest) => map size rest)
      | _ => none

def readItems (nesting : Nat) : Nat → Nat → Bytes → Option (List Wire × Bytes)
  | _, 0, bytes => some ([], bytes)
  | 0, _ + 1, _ => none
  | fuel + 1, size + 1, bytes => do
    let (item, rest) ← readTree nesting fuel bytes
    let (items, rest) ← readItems nesting fuel size rest
    some (item :: items, rest)

-- The entries of a map; `none` where a key is not a text.
def readEntries (nesting : Nat) : Nat → Nat → Bytes → Option (Option (List (String × Wire)) × Bytes)
  | _, 0, bytes => some (some [], bytes)
  | 0, _ + 1, _ => none
  | fuel + 1, size + 1, bytes => do
    let (key, rest) ← readTree nesting fuel bytes
    let (w, rest) ← readTree nesting fuel rest
    let (entries, rest) ← readEntries nesting fuel size rest
    some (match key.text?, entries with
      | some key, some entries => (some ((key, w) :: entries), rest)
      | _, _ => (none, rest))

end

-- How deeply containers may be nested.
def maxNesting : Nat := 1023

-- The tree at the start of the bytes. What follows it does not count.
def read? (bytes : Bytes) : Option Wire :=
  (readTree maxNesting (2 * bytes.length + 2) bytes).map (·.1)

end Read

end DocStore.MessagePack
