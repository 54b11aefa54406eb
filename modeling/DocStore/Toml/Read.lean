import DocStore.Double.Decimal
import DocStore.Timestamp
import DocStore.Toml.Text
import DocStore.Word

-- Reads TOML documents, line by line.
namespace DocStore.Toml

-- A run of digits in which single underscores may stand between digits.
def digitRun? (isDigit : Char → Bool) : List Char → Option (List Char)
  | [] => none
  | [c] => if isDigit c then some [c] else none
  | c :: '_' :: rest => if isDigit c then (digitRun? isDigit rest).map (c :: ·) else none
  | c :: rest => if isDigit c then (digitRun? isDigit rest).map (c :: ·) else none

def valueOf (base : Nat) (digits : List Char) : Nat :=
  digits.foldl (fun n c => base * n + (hexValue? c).getD 0) 0

def isBinary (c : Char) : Bool := c == '0' || c == '1'
def isOctal (c : Char) : Bool := '0' ≤ c && c ≤ '7'
def isHex (c : Char) : Bool := (hexValue? c).isSome

-- Digits without superfluous zeros in front.
def wholeRun? (cs : List Char) : Option (List Char) :=
  match digitRun? Char.isDigit cs with
  | some ('0' :: _ :: _) => none
  | other => other

-- A sign, told by whether it is a minus, and what follows it.
def splitSign : List Char → Bool × List Char
  | '-' :: rest => (true, rest)
  | '+' :: rest => (false, rest)
  | rest => (false, rest)

-- Integers have 64 bits and a sign.
def integer? (cs : List Char) : Option Int :=
  let within (n : Int) : Option Int := if Word.isSigned n then some n else none
  let based (base : Nat) (isDigit : Char → Bool) (rest : List Char) : Option Int :=
    (digitRun? isDigit rest).bind (fun digits => within (valueOf base digits))
  match cs with
  | '0' :: 'x' :: rest => based 16 isHex rest
  | '0' :: 'o' :: rest => based 8 isOctal rest
  | '0' :: 'b' :: rest => based 2 isBinary rest
  | _ =>
    let (negative, rest) := splitSign cs
    (wholeRun? rest).bind (fun digits =>
      let n : Int := valueOf 10 digits
      within (if negative then -n else n))

-- Splits before the first character that satisfies a test.
private def splitAt (test : Char → Bool) (cs : List Char) : List Char × List Char :=
  (cs.takeWhile (fun c => !test c), cs.dropWhile (fun c => !test c))

private def exponent? (cs : List Char) : Option Int :=
  let (negative, rest) := splitSign cs
  (digitRun? Char.isDigit rest).map (fun digits =>
    if negative then -(valueOf 10 digits : Int) else valueOf 10 digits)

-- A fraction has digits on both sides of its point, or an exponent. A positive one must not be
-- beyond all finite numbers.
def isFraction (cs : List Char) : Bool :=
  let (negative, rest) := splitSign cs
  if rest == "inf".toList || rest == "nan".toList then true
  else
    let (mantissa, tail) := splitAt (fun c => c == 'e' || c == 'E') rest
    let (whole, point) := splitAt (· == '.') mantissa
    let fraction := match point with
      | [] => some []
      | _ :: digits => digitRun? Char.isDigit digits
    let exp := match tail with
      | [] => some 0
      | _ :: cs => exponent? cs
    match wholeRun? whole, fraction, exp with
    | some whole, some fraction, some exp =>
      let d : Decimal := ⟨valueOf 10 (whole ++ fraction), exp - fraction.length⟩
      !(point.isEmpty && tail.isEmpty) && (negative || (d.toDouble false).isFinite)
    | _, _, _ => false

-- A number of just so many digits.
private def fixed? (width : Nat) (cs : List Char) : Option (Nat × List Char) :=
  let digits := cs.take width
  if digits.length = width ∧ digits.all Char.isDigit then some (valueOf 10 digits, cs.drop width)
  else none

private def expect? (c : Char) : List Char → Option (List Char)
  | d :: rest => if c = d then some rest else none
  | [] => none

private def date? (cs : List Char) : Option (List Char) := do
  let (year, rest) ← fixed? 4 cs
  let (month, rest) ← fixed? 2 (← expect? '-' rest)
  let (day, rest) ← fixed? 2 (← expect? '-' rest)
  if 1 ≤ month ∧ month ≤ 12 ∧ 1 ≤ day ∧ day ≤ Timestamp.monthLength year month then some rest
  else none

private def timeOfDay? (cs : List Char) : Option (List Char) := do
  let (hour, rest) ← fixed? 2 cs
  let (minute, rest) ← fixed? 2 (← expect? ':' rest)
  let (second, rest) ← fixed? 2 (← expect? ':' rest)
  let rest ← match rest with
    | '.' :: c :: digits => if c.isDigit then some (digits.dropWhile Char.isDigit) else none
    | _ => some rest
  if hour ≤ 23 ∧ minute ≤ 59 ∧ second ≤ 60 then some rest else none

private def isOffset (cs : List Char) : Bool :=
  match cs with
  | ['Z'] => true
  | ['z'] => true
  | sign :: rest =>
    (sign == '+' || sign == '-') &&
      ((do
        let (hour, rest) ← fixed? 2 rest
        let (minute, rest) ← fixed? 2 (← expect? ':' rest)
        if hour ≤ 23 ∧ minute ≤ 59 ∧ rest.isEmpty then some () else none).isSome)
  | [] => false

-- A date, a time of day, or both, and then with a distance from universal time or without.
def isDate (cs : List Char) : Bool :=
  match date? cs with
  | none => timeOfDay? cs == some []
  | some [] => true
  | some (delimiter :: rest) =>
    (delimiter == 'T' || delimiter == 't' || delimiter == ' ') &&
      match timeOfDay? rest with
      | some [] => true
      | some offset => isOffset offset
      | none => false

-- The value that a word writes.
def wordValue? (cs : List Char) : Option Toml :=
  if cs == "true".toList then some (.bool true)
  else if cs == "false".toList then some (.bool false)
  else if isDate cs then some .date
  else if isFraction cs then some .fraction
  else (integer? cs).map .int

private def isWordChar (c : Char) : Bool :=
  c.isAlphanum || c == '+' || c == '-' || c == '_' || c == '.' || c == ':'

-- A blank may stand between a date and a time of day.
def readWord (cs : List Char) : List Char × List Char :=
  let word := cs.takeWhile isWordChar
  match cs.dropWhile isWordChar with
  | ' ' :: a :: b :: ':' :: rest =>
    if date? word == some [] && a.isDigit && b.isDigit then
      let more := a :: b :: ':' :: rest
      (word ++ ' ' :: more.takeWhile isWordChar, more.dropWhile isWordChar)
    else (word, ' ' :: a :: b :: ':' :: rest)
  | rest => (word, rest)

def skipBlanks (cs : List Char) : List Char := cs.dropWhile (fun c => c == ' ' || c == '\t')

-- Skips blanks, line breaks and comments.
def skipLines (inComment : Bool) : List Char → List Char
  | [] => []
  | '\x0d' :: '\n' :: rest => skipLines false rest
  | c :: rest =>
    if c = '\n' then skipLines false rest
    else if inComment then if isPlain c then skipLines true rest else c :: rest
    else if c = ' ' || c = '\t' then skipLines false rest
    else if c = '#' then skipLines true rest
    else c :: rest

-- The rest of a line, which holds nothing but a comment.
def endLine (cs : List Char) : Option (List Char) :=
  let after := match skipBlanks cs with
    | '#' :: rest => rest.dropWhile isPlain
    | rest => rest
  match after with
  | [] => some []
  | '\n' :: rest => some rest
  | '\x0d' :: '\n' :: rest => some rest
  | _ => none

private def isBare (c : Char) : Bool := c.isAlphanum || c == '_' || c == '-'

-- One part of a key: a bare word, or a quoted text on one line.
def readKeyPart : List Char → Option (String × List Char)
  | '"' :: rest => (readQuoted rest).map (fun (key, rest) => (String.ofList key, rest))
  | '\'' :: rest => (readLiteral rest).map (fun (key, rest) => (String.ofList key, rest))
  | cs =>
    match cs.takeWhile isBare with
    | [] => none
    | key => some (String.ofList key, cs.dropWhile isBare)

-- How deeply lists, tables and keys may be nested.
def maxNesting : Nat := 79

-- A key with dots, with the blanks around it. `parts` bounds the number of its parts.
def readKey : Nat → List Char → Option (List String × List Char)
  | 0, _ => none
  | parts + 1, cs => do
    let (part, rest) ← readKeyPart (skipBlanks cs)
    match skipBlanks rest with
    | '.' :: rest =>
      let (path, rest) ← readKey parts rest
      some (part :: path, rest)
    | rest => some ([part], rest)

mutual

-- A value at the start of the text. `fuel` bounds the number of steps, and `nesting` how deeply
-- lists and tables may be nested.
def readValue : Nat → Nat → List Char → Option (Toml × List Char)
  | 0, _, _ => none
  | _ + 1, 0, '[' :: _ => none
  | _ + 1, 0, '\x7b' :: _ => none
  | fuel + 1, nesting + 1, '[' :: rest =>
    (readItems fuel nesting (skipLines false rest)).map (fun (items, rest) => (.list items, rest))
  | fuel + 1, nesting + 1, '\x7b' :: rest =>
    match skipBlanks rest with
    | '\x7d' :: rest => some (.table [], rest)
    | rest =>
      (readEntries fuel nesting [] rest).map
        (fun (entries, rest) => (.table (ofEntries entries), rest))
  | _ + 1, _, cs =>
    match cs with
    | '"' :: _ => (readText cs).map (fun (s, rest) => (.text (String.ofList s), rest))
    | '\'' :: _ => (readText cs).map (fun (s, rest) => (.text (String.ofList s), rest))
    | _ =>
      let (word, rest) := readWord cs
      (wordValue? word).map (fun v => (v, rest))

-- The items of a list up to its end. A comma may stand behind the last one.
def readItems : Nat → Nat → List Char → Option (List Toml × List Char)
  | 0, _, _ => none
  | _ + 1, _, ']' :: rest => some ([], rest)
  | fuel + 1, nesting, cs => do
    let (item, rest) ← readValue fuel nesting cs
    match skipLines false rest with
    | ',' :: rest =>
      let (items, rest) ← readItems fuel nesting (skipLines false rest)
      some (item :: items, rest)
    | ']' :: rest => some ([item], rest)
    | _ => none

-- The entries of a table in braces up to its end, added to those before.
def readEntries : Nat → Nat → Entries → List Char → Option (Entries × List Char)
  | 0, _, _, _ => none
  | fuel + 1, nesting, entries, cs => do
    let (path, rest) ← readKey maxNesting cs
    let (value, rest) ← readValue fuel nesting (skipBlanks (← expect? '=' rest))
    let entries ← entries.assign value true path
    match skipBlanks rest with
    | ',' :: rest => readEntries fuel nesting entries rest
    | '\x7d' :: rest => some (entries, rest)
    | _ => none

end

-- One line, which may be a heading, an entry, or nothing. The heading tells where entries belong.
def readLine (fuel : Nat) (heading : List String) (entries : Entries) (cs : List Char) :
    Option (List String × Entries × List Char) := do
  match skipBlanks cs with
  | '[' :: '[' :: rest =>
    let (path, rest) ← readKey maxNesting rest
    let rest ← endLine (← expect? ']' (← expect? ']' rest))
    let entries ← entries.alterAt (Entries.appendTable (path.getLast?.getD "")) path.dropLast
    some (path, entries, rest)
  | '[' :: rest =>
    let (path, rest) ← readKey maxNesting rest
    let rest ← endLine (← expect? ']' rest)
    let entries ← entries.alterAt (Entries.openTable (path.getLast?.getD "")) path.dropLast
    some (path, entries, rest)
  | [] => some (heading, entries, [])
  | c :: rest =>
    if c = '#' || c = '\n' || c = '\x0d' then
      some (heading, entries, ← endLine (c :: rest))
    else
      let (path, rest) ← readKey maxNesting (c :: rest)
      let (value, rest) ← readValue fuel maxNesting (skipBlanks (← expect? '=' rest))
      let entries ← entries.alterAt (Entries.assign value true path) heading
      some (heading, entries, ← endLine rest)

-- All lines. `fuel` bounds their number.
def readLines (steps : Nat) : Nat → List String → Entries → List Char → Option Entries
  | 0, _, _, _ => none
  | _ + 1, _, entries, [] => some entries
  | fuel + 1, heading, entries, cs => do
    let (heading, entries, rest) ← readLine steps heading entries cs
    readLines steps fuel heading entries rest

-- The document that a text writes, as a table.
def read? (s : String) : Option Toml :=
  let cs := match s.toList with
    | '\ufeff' :: rest => rest
    | cs => cs
  let steps := 2 * cs.length + 2
  (readLines steps steps [] [] cs).map (fun entries => .table (ofEntries entries))

end DocStore.Toml
