import DocStore.Bytes

-- The text of bytes that need not be well-formed UTF-8.
namespace DocStore.Text

-- What may follow a leading byte: the range of each continuation byte. There is no answer for a
-- byte that leads nothing.
def continuations? (lead : UInt8) : Option (List (UInt8 × UInt8)) :=
  let any := (0x80, 0xBF)
  if lead < 0x80 then some []
  else if lead < 0xC2 then none
  else if lead < 0xE0 then some [any]
  else if lead = 0xE0 then some [(0xA0, 0xBF), any]
  else if lead = 0xED then some [(0x80, 0x9F), any]
  else if lead < 0xF0 then some [any, any]
  else if lead = 0xF0 then some [(0x90, 0xBF), any, any]
  else if lead < 0xF4 then some [any, any, any]
  else if lead = 0xF4 then some [(0x80, 0x8F), any, any]
  else none

-- The bytes that continue a character, as far as they fit.
def fitting : List (UInt8 × UInt8) → Bytes → Bytes
  | (low, high) :: ranges, b :: rest => if low ≤ b && b ≤ high then b :: fitting ranges rest else []
  | _, _ => []

-- The part of the bytes that makes the next character, or spoils it, and what comes after.
def nextUnit (lead : UInt8) (rest : Bytes) : Bytes × Bytes :=
  match continuations? lead with
  | none => ([lead], rest)
  | some ranges =>
    let tail := fitting ranges rest
    (lead :: tail, rest.drop tail.length)

theorem nextUnit_length (lead : UInt8) (rest : Bytes) :
    (nextUnit lead rest).2.length ≤ rest.length := by
  unfold nextUnit
  split
  · simp
  · simp only [List.length_drop]; omega

def lossyChars : Bytes → List Char
  | [] => []
  | lead :: rest =>
    let unit := nextUnit lead rest
    match Bytes.toString? unit.1 with
    | some text => text.toList ++ lossyChars unit.2
    | none => '\ufffd' :: lossyChars unit.2
termination_by bytes => bytes.length
decreasing_by all_goals exact Nat.lt_succ_of_le (nextUnit_length lead rest)

-- Each longest part of an ill-formed sequence becomes one replacement character.
def lossy (bytes : Bytes) : String := String.ofList (lossyChars bytes)

end DocStore.Text
