import DocStore.Bytes
import DocStore.Double.Decimal
import DocStore.Wire

-- The JSON form of a tree: `Json.write` and `Json.read?`.
namespace DocStore.Json

-- Characters of the format, as bytes.
def quote : UInt8 := 0x22
def backslash : UInt8 := 0x5C
def comma : UInt8 := 0x2C
def colon : UInt8 := 0x3A
def openList : UInt8 := 0x5B
def closeList : UInt8 := 0x5D
def openMap : UInt8 := 0x7B
def closeMap : UInt8 := 0x7D

section Write

-- Numbers are written with the fewest digits that read back, positionally where the leading digit
-- has an exponent from -5 up to 15, and always so that they differ from integers.
def numbers : Decimal.Notation where
  plainFrom := some (-5)
  plainBelow := some 16
  pointZero := true
  tie := .toEven

-- Quotes, backslashes and control characters are escaped, the latter by letter if they have one.
def escapeByte (b : UInt8) : Bytes :=
  if b = quote then [backslash, quote]
  else if b = backslash then [backslash, backslash]
  else if b = 0x08 then [backslash, 0x62]
  else if b = 0x09 then [backslash, 0x74]
  else if b = 0x0A then [backslash, 0x6E]
  else if b = 0x0C then [backslash, 0x66]
  else if b = 0x0D then [backslash, 0x72]
  else if b < 0x20 then
    [backslash, 0x75, 0x30, 0x30, (Bytes.hexDigit (b.toNat / 16)).toNat.toUInt8,
      (Bytes.hexDigit (b.toNat % 16)).toNat.toUInt8]
  else [b]

def writeText (s : String) : Bytes :=
  quote :: (Bytes.ofString s).flatMap escapeByte ++ [quote]

mutual

-- Numbers that are not finite have no form of their own and become null.
def write : Wire → Bytes
  | .null => Bytes.ofString "null"
  | .bool true => Bytes.ofString "true"
  | .bool false => Bytes.ofString "false"
  | .int n => Bytes.ofString (toString n)
  | .float x => Bytes.ofString (if x.isFinite then x.render numbers else "null")
  | .text s => writeText s
  | .blob s => writeText s
  | .list items => openList :: writeItems items ++ [closeList]
  | .map entries => openMap :: writeEntries entries ++ [closeMap]
  | .unreadable => Bytes.ofString "null"

def writeItems : List Wire → Bytes
  | [] => []
  | [w] => write w
  | w :: rest => write w ++ comma :: writeItems rest

def writeEntries : List (String × Wire) → Bytes
  | [] => []
  | [(key, w)] => writeText key ++ colon :: write w
  | (key, w) :: rest => writeText key ++ colon :: write w ++ comma :: writeEntries rest

end

end Write

section Read

def isBlank (b : UInt8) : Bool := b == 0x20 || b == 0x09 || b == 0x0A || b == 0x0D

def skipBlanks (bytes : Bytes) : Bytes := bytes.dropWhile isBlank

def isDigit (b : UInt8) : Bool := 0x30 ≤ b && b ≤ 0x39

def hexValue? (b : UInt8) : Option Nat :=
  if isDigit b then some (b.toNat - 0x30)
  else if 0x61 ≤ b && b ≤ 0x66 then some (b.toNat - 0x57)
  else if 0x41 ≤ b && b ≤ 0x46 then some (b.toNat - 0x37)
  else none

-- What stands between quotes: bytes as they are, and 16-bit units that were written in hexadecimal.
inductive Piece where
  | byte (b : UInt8)
  | unit (n : Nat)

-- Prefixes a piece to the pieces read so far.
def Piece.before (p : Piece) : List Piece × Bytes → List Piece × Bytes
  | (pieces, rest) => (p :: pieces, rest)

-- The pieces up to the closing quote, and what follows it. Control characters must be escaped.
def readPieces : Bytes → Option (List Piece × Bytes)
  | [] => none
  | b :: rest =>
    if b = quote then some ([], rest)
    else if b = backslash then
      match rest with
      | [] => none
      | e :: rest =>
        let plain (c : UInt8) := (readPieces rest).map (Piece.byte c).before
        if e = quote then plain quote
        else if e = backslash then plain backslash
        else if e = 0x2F then plain 0x2F
        else if e = 0x62 then plain 0x08
        else if e = 0x66 then plain 0x0C
        else if e = 0x6E then plain 0x0A
        else if e = 0x72 then plain 0x0D
        else if e = 0x74 then plain 0x09
        else if e = 0x75 then
          match rest with
          | h₁ :: h₂ :: h₃ :: h₄ :: rest =>
            match hexValue? h₁, hexValue? h₂, hexValue? h₃, hexValue? h₄ with
            | some a, some b, some c, some d =>
              (readPieces rest).map (Piece.unit (4096 * a + 256 * b + 16 * c + d)).before
            | _, _, _, _ => none
          | _ => none
        else none
    else if b < 0x20 then none
    else (readPieces rest).map (Piece.byte b).before

def bytesOfChar (n : Nat) : Bytes := Bytes.ofString (String.singleton (Char.ofNat n))

-- The bytes that pieces stand for. Units from D800 to DFFF count only in pairs.
def joinPieces : List Piece → Option Bytes
  | [] => some []
  | .byte b :: rest => (joinPieces rest).map (b :: ·)
  | .unit n :: .unit m :: rest =>
    if 0xD800 ≤ n ∧ n < 0xDC00 then
      if 0xDC00 ≤ m ∧ m < 0xE000 then
        (joinPieces rest).map (bytesOfChar (0x10000 + (n - 0xD800) * 0x400 + (m - 0xDC00)) ++ ·)
      else none
    else if 0xDC00 ≤ n ∧ n < 0xE000 then none
    else (joinPieces (.unit m :: rest)).map (bytesOfChar n ++ ·)
  | .unit n :: rest =>
    if 0xD800 ≤ n ∧ n < 0xE000 then none
    else (joinPieces rest).map (bytesOfChar n ++ ·)

-- The text behind an opening quote. It is `none` where the pieces do not make up a text.
def readText (bytes : Bytes) : Option (Option String × Bytes) := do
  let (pieces, rest) ← readPieces bytes
  some ((joinPieces pieces).bind Bytes.toString?, rest)

def digitsOf (bytes : Bytes) : Nat := bytes.foldl (fun n b => 10 * n + (b.toNat - 0x30)) 0

-- A run of at least one digit.
def readDigits (bytes : Bytes) : Option (Bytes × Bytes) :=
  match bytes.takeWhile isDigit with
  | [] => none
  | digits => some (digits, bytes.dropWhile isDigit)

-- A number as it was written.
structure Numeral where
  negative : Bool
  whole : Bytes
  fraction : Option Bytes
  exponent : Option Int

-- An exponent, with its sign, behind the letter.
def readExponent (bytes : Bytes) : Option (Int × Bytes) :=
  let (negative, rest) := match bytes with
    | b :: rest =>
      if b = 0x2B then (false, rest) else if b = 0x2D then (true, rest) else (false, bytes)
    | [] => (false, [])
  (readDigits rest).map (fun (digits, rest) =>
    (if negative then -(digitsOf digits : Int) else digitsOf digits, rest))

-- A number without superfluous zeros in front.
def readNumeral (bytes : Bytes) : Option (Numeral × Bytes) := do
  let (negative, rest) := match bytes with
    | b :: rest => if b = 0x2D then (true, rest) else (false, bytes)
    | [] => (false, [])
  let (whole, rest) ← readDigits rest
  if whole.length ≠ 1 ∧ whole.head? = some 0x30 then none
  else
    let (fraction, rest) ← match rest with
      | 0x2E :: rest => (readDigits rest).map (fun (digits, rest) => (some digits, rest))
      | _ => some (none, rest)
    let (exponent, rest) ← match rest with
      | b :: after =>
        if b = 0x65 ∨ b = 0x45 then (readExponent after).map (fun (e, rest) => (some e, rest))
        else some (none, rest)
      | [] => some (none, [])
    some (⟨negative, whole, fraction, exponent⟩, rest)

def Numeral.decimal (n : Numeral) : Decimal :=
  let fraction := n.fraction.getD []
  ⟨digitsOf (n.whole ++ fraction), n.exponent.getD 0 - fraction.length⟩

-- Whole numbers of 64 bits are integers, except for a negative zero. Everything else is the
-- nearest float, and a number beyond all of them is not readable.
def Numeral.toWire (n : Numeral) : Wire :=
  let magnitude := digitsOf n.whole
  let isWhole := n.fraction.isNone && n.exponent.isNone
  if isWhole && !n.negative && Word.isUnsigned magnitude then .int magnitude
  else if isWhole && n.negative && decide (0 < magnitude) && Word.isSigned (-(magnitude : Int)) then
    .int (-(magnitude : Int))
  else
    let x := n.decimal.toDouble n.negative
    if x.isFinite then .float x else .unreadable

-- The rest of a word whose letters are already known.
def readWord (word : Wire) (letters : String) (bytes : Bytes) : Option (Wire × Bytes) :=
  (Bytes.dropPrefix? (Bytes.ofString letters) bytes).map (fun rest => (word, rest))

mutual

-- A tree at the start of the bytes, and what follows it. `fuel` bounds the number of steps.
def readTree : Nat → Bytes → Option (Wire × Bytes)
  | 0, _ => none
  | fuel + 1, bytes =>
    match skipBlanks bytes with
    | [] => none
    | b :: rest =>
      if b = quote then
        (readText rest).map (fun (s, rest) => (s.elim .unreadable .text, rest))
      else if b = openList then
        match skipBlanks rest with
        | [] => none
        | c :: after =>
          if c = closeList then some (.list [], after)
          else (readItems fuel (c :: after)).map (fun (items, rest) => (.list items, rest))
      else if b = openMap then
        match skipBlanks rest with
        | [] => none
        | c :: after =>
          if c = closeMap then some (.map [], after)
          else
            (readEntries fuel (c :: after)).map (fun (entries, rest) =>
              match entries with
              | some entries => (.map entries, rest)
              | none => (.unreadable, rest))
      else if b = 0x6E then readWord .null "ull" rest
      else if b = 0x74 then readWord (.bool true) "rue" rest
      else if b = 0x66 then readWord (.bool false) "alse" rest
      else (readNumeral (b :: rest)).map (fun (n, rest) => (n.toWire, rest))

-- The items of a list up to its end.
def readItems : Nat → Bytes → Option (List Wire × Bytes)
  | 0, _ => none
  | fuel + 1, bytes => do
    let (item, rest) ← readTree fuel bytes
    match skipBlanks rest with
    | [] => none
    | c :: rest =>
      if c = closeList then some ([item], rest)
      else if c = comma then
        let (items, rest) ← readItems fuel rest
        some (item :: items, rest)
      else none

-- The entries of a map up to its end; `none` where a key is not readable.
def readEntries : Nat → Bytes → Option (Option (List (String × Wire)) × Bytes)
  | 0, _ => none
  | fuel + 1, bytes =>
    match skipBlanks bytes with
    | [] => none
    | q :: rest =>
      if q ≠ quote then none
      else do
        let (key, rest) ← readText rest
        match skipBlanks rest with
        | [] => none
        | c :: rest =>
          if c ≠ colon then none
          else
            let (w, rest) ← readTree fuel rest
            match skipBlanks rest with
            | [] => none
            | c :: rest =>
              if c = closeMap then some (key.map (fun key => [(key, w)]), rest)
              else if c = comma then
                let (entries, rest) ← readEntries fuel rest
                some (match key, entries with
                  | some key, some entries => (some ((key, w) :: entries), rest)
                  | _, _ => (none, rest))
              else none

end

-- The tree that the bytes write, where nothing but blanks may stand around it.
def read? (bytes : Bytes) : Option Wire :=
  match readTree (2 * bytes.length + 2) bytes with
  | some (w, rest) => if (skipBlanks rest).isEmpty then some w else none
  | none => none

-- How deeply containers may be nested where their meaning counts.
def maxNesting : Nat := 127

end Read

-- The text of a tree.
def render (w : Wire) : String := (Bytes.toString? (write w)).getD ""

-- The text of a value.
def renderValue (v : Value) : String := render (Wire.ofValue v)

-- The value that a text writes.
def parseValue? (text : String) : Option Value :=
  (read? (Bytes.ofString text)).bind (Wire.toValue? maxNesting)

end DocStore.Json
