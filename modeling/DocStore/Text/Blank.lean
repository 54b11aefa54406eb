namespace DocStore.Text

-- Closed ranges of code points, ascending and apart.
abbrev Ranges := List (Nat × Nat)

def Ranges.contains (ranges : Ranges) (n : Nat) : Bool :=
  ranges.any (fun r => decide (r.1 ≤ n) && decide (n ≤ r.2))

-- The characters with the property White_Space.
def blankRanges : Ranges :=
  [(0x09, 0x0D), (0x20, 0x20), (0x85, 0x85), (0xA0, 0xA0), (0x1680, 0x1680), (0x2000, 0x200A),
   (0x2028, 0x2029), (0x202F, 0x202F), (0x205F, 0x205F), (0x3000, 0x3000)]

def isBlank (c : Char) : Bool := blankRanges.contains c.toNat

def dropBlanks (text : List Char) : List Char := text.dropWhile isBlank

-- Decimal digits in front of a text, at most `limit` of them.
def takeDigits : Nat → List Char → List Char × List Char
  | 0, text => ([], text)
  | limit + 1, c :: rest =>
    if c.isDigit then
      let (digits, after) := takeDigits limit rest
      (c :: digits, after)
    else ([], c :: rest)
  | _ + 1, [] => ([], [])

-- The number that a run of decimal digits writes.
def digitsValue (digits : List Char) : Nat :=
  digits.foldl (fun n c => 10 * n + (c.toNat - 48)) 0

-- A number padded with zeros to a width.
def padded (width n : Nat) : List Char :=
  let digits := Nat.toDigits 10 n
  List.replicate (width - digits.length) '0' ++ digits

end DocStore.Text
