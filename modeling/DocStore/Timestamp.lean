import DocStore.Text.Blank

namespace DocStore

-- An instant in coordinated universal time: seconds since the start of 1970 and nanoseconds.
-- A leap second continues the second before it, with nanoseconds from a thousand million on.
structure Timestamp where
  seconds : Int
  nanos : Nat
  deriving DecidableEq, Repr, Inhabited

namespace Timestamp

open Text

-- The order of instants in time.
def isBefore (a b : Timestamp) : Bool :=
  a.seconds < b.seconds || (a.seconds == b.seconds && a.nanos < b.nanos)

def isLeapYear (year : Int) : Bool :=
  year % 4 == 0 && (year % 100 != 0 || year % 400 == 0)

def monthLength (year : Int) (month : Nat) : Nat :=
  match month with
  | 2 => if isLeapYear year then 29 else 28
  | 4 | 6 | 9 | 11 => 30
  | _ => 31

-- Days from the start of 1970 to a date, counted in years that start in March.
def daysOfDate (year : Int) (month day : Nat) : Int :=
  let y := if month ≤ 2 then year - 1 else year
  let era := Int.fdiv y 400
  let yearOfEra := y - era * 400
  let monthOfYear := if month ≤ 2 then month + 9 else month - 3
  let dayOfYear : Int := ((153 * monthOfYear + 2) / 5 + day : Nat) - 1
  let dayOfEra := yearOfEra * 365 + Int.fdiv yearOfEra 4 - Int.fdiv yearOfEra 100 + dayOfYear
  era * 146097 + dayOfEra - 719468

-- The date a number of days after the start of 1970.
def dateOfDays (days : Int) : Int × Nat × Nat :=
  let shifted := days + 719468
  let era := Int.fdiv shifted 146097
  let dayOfEra := (shifted - era * 146097).toNat
  let yearOfEra := (dayOfEra - dayOfEra / 1460 + dayOfEra / 36524 - dayOfEra / 146096) / 365
  let dayOfYear := dayOfEra - (365 * yearOfEra + yearOfEra / 4 - yearOfEra / 100)
  let monthOfYear := (5 * dayOfYear + 2) / 153
  let day := dayOfYear - (153 * monthOfYear + 2) / 5 + 1
  let month := if monthOfYear < 10 then monthOfYear + 3 else monthOfYear - 9
  let year : Int := (yearOfEra : Int) + era * 400
  (if month ≤ 2 then year + 1 else year, month, day)

-- The years that a date may have.
def isYear (year : Int) : Bool := decide (-262143 ≤ year) && decide (year ≤ 262142)

def number (width : Nat) (text : List Char) : Option (Nat × List Char) :=
  let (digits, rest) := takeDigits width (dropBlanks text)
  if digits.isEmpty then none else some (digitsValue digits, rest)

def literal (c : Char) (text : List Char) : Option (List Char) :=
  match dropBlanks text with
  | d :: rest => if c = d then some rest else none
  | [] => none

-- A year has four digits, or any number of digits behind a sign.
def yearNumber (text : List Char) : Option (Int × List Char) :=
  match dropBlanks text with
  | '-' :: rest =>
    let (digits, after) := takeDigits rest.length rest
    if digits.isEmpty then none else some (-(digitsValue digits : Int), after)
  | '+' :: rest =>
    let (digits, after) := takeDigits rest.length rest
    if digits.isEmpty then none else some ((digitsValue digits : Int), after)
  | rest => (number 4 rest).map (fun (n, after) => ((n : Int), after))

-- Nine fraction digits count; those behind them are dropped.
def fraction (text : List Char) : Option (Nat × List Char) :=
  match text with
  | '.' :: rest =>
    let (digits, after) := takeDigits 9 rest
    if digits.isEmpty then none
    else some (digitsValue digits * Nat.pow 10 (9 - digits.length), after.dropWhile Char.isDigit)
  | _ => some (0, text)

def twoDigits (text : List Char) : Option (Nat × List Char) :=
  match text with
  | a :: b :: rest => if a.isDigit && b.isDigit then some (digitsValue [a, b], rest) else none
  | _ => none

-- The distance from universal time, in seconds.
def offset (text : List Char) : Option (Int × List Char) :=
  let text := dropBlanks text
  let upper := (text.take 3).map Char.toUpper
  if upper = ['U', 'T', 'C'] then some (0, text.drop 3)
  else
    let signed (negative : Bool) (rest : List Char) : Option (Int × List Char) := do
      let (hours, rest) ← twoDigits rest
      let (minutes, rest) ← twoDigits (rest.dropWhile (fun c => c == ':' || isBlank c))
      if 60 ≤ minutes then none
      else
        let seconds : Int := (hours * 3600 + minutes * 60 : Nat)
        some (if negative then -seconds else seconds, rest)
    match text with
    | 'Z' :: rest => some (0, rest)
    | 'z' :: rest => some (0, rest)
    | '+' :: rest => signed false rest
    | '-' :: rest => signed true rest
    | '\u2212' :: rest => signed true rest
    | _ => none

-- Reads date, time of day and distance from universal time. Numbers may be written with fewer
-- digits, and blanks may stand in front of numbers and separators.
def parse? (text : String) : Option Timestamp := do
  let (year, rest) ← yearNumber text.toList
  let rest ← literal '-' rest
  let (month, rest) ← number 2 rest
  let rest ← literal '-' rest
  let (day, rest) ← number 2 rest
  let rest ← match rest with
    | c :: rest => if c == 't' || c == 'T' || c == ' ' then some rest else none
    | [] => none
  let (hour, rest) ← number 2 rest
  let rest ← literal ':' rest
  let (minute, rest) ← number 2 rest
  let rest ← literal ':' rest
  let (second, rest) ← number 2 rest
  let (nanos, rest) ← fraction rest
  let (distance, rest) ← offset rest
  if !(dropBlanks rest).isEmpty then none
  else if !isYear year || month < 1 || 12 < month then none
  else if day < 1 || monthLength year month < day then none
  else if 24 ≤ hour || 60 ≤ minute || 60 < second || 86400 ≤ distance.natAbs then none
  else
    let inMinute := min second 59
    let seconds := daysOfDate year month day * 86400 + (hour * 3600 + minute * 60 + inMinute : Nat)
      - distance
    if !isYear (dateOfDays (Int.fdiv seconds 86400)).1 then none
    else some ⟨seconds, if second = 60 then 1000000000 + nanos else nanos⟩

-- Zero, three, six or nine fraction digits, as few as are exact.
def fractionText (nanos : Nat) : List Char :=
  if nanos = 0 then []
  else if nanos % 1000000 = 0 then '.' :: padded 3 (nanos / 1000000)
  else if nanos % 1000 = 0 then '.' :: padded 6 (nanos / 1000)
  else '.' :: padded 9 nanos

def yearText (year : Int) : List Char :=
  if 0 ≤ year ∧ year ≤ 9999 then padded 4 year.toNat
  else (if year < 0 then '-' else '+') :: padded 4 year.natAbs

def render (t : Timestamp) : String :=
  let (year, month, day) := dateOfDays (Int.fdiv t.seconds 86400)
  let ofDay := (Int.fmod t.seconds 86400).toNat
  let second := ofDay % 60 + t.nanos / 1000000000
  String.ofList (yearText year ++ '-' :: padded 2 month ++ '-' :: padded 2 day ++
    'T' :: padded 2 (ofDay / 3600) ++ ':' :: padded 2 (ofDay / 60 % 60) ++ ':' :: padded 2 second ++
    fractionText (t.nanos % 1000000000) ++ ['Z'])

end Timestamp

end DocStore
