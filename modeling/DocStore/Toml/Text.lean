import DocStore.Toml

-- How TOML quotes texts.
namespace DocStore.Toml

-- Characters that may stand in a text on one line.
def isPlain (c : Char) : Bool := c == '\t' || (' ' ≤ c && c ≠ '\x7f')

def hexValue? (c : Char) : Option Nat :=
  if c.isDigit then some (c.toNat - 48)
  else if 'a' ≤ c && c ≤ 'f' then some (c.toNat - 87)
  else if 'A' ≤ c && c ≤ 'F' then some (c.toNat - 55)
  else none

-- The character with a number in hexadecimal digits, if there is one.
def scalar? (digits : List Char) : Option Char := do
  let values ← digits.mapM hexValue?
  let n := values.foldl (fun n d => 16 * n + d) 0
  if n.isValidChar then some (Char.ofNat n) else none

def simpleEscape? : Char → Option Char
  | 'b' => some '\x08'
  | 't' => some '\t'
  | 'n' => some '\n'
  | 'f' => some '\x0c'
  | 'r' => some '\x0d'
  | '"' => some '"'
  | '\\' => some '\\'
  | _ => none

private def before (c : Char) : List Char × List Char → List Char × List Char
  | (cs, rest) => (c :: cs, rest)

-- A quoted text behind its opening quote, and what follows it.
def readQuoted : List Char → Option (List Char × List Char)
  | [] => none
  | '"' :: rest => some ([], rest)
  | '\\' :: 'u' :: a :: b :: c :: d :: rest => do
    return before (← scalar? [a, b, c, d]) (← readQuoted rest)
  | '\\' :: 'U' :: a :: b :: c :: d :: e :: f :: g :: h :: rest => do
    return before (← scalar? [a, b, c, d, e, f, g, h]) (← readQuoted rest)
  | '\\' :: e :: rest => do return before (← simpleEscape? e) (← readQuoted rest)
  | c :: rest => do if isPlain c then return before c (← readQuoted rest) else none

-- A literal text behind its opening quote. Nothing is escaped in it.
def readLiteral : List Char → Option (List Char × List Char)
  | [] => none
  | '\'' :: rest => some ([], rest)
  | c :: rest => do if isPlain c then return before c (← readLiteral rest) else none

-- What three closing quotes leave: up to two quotes before them belong to the text.
private def closing (quote : Char) : List Char → List Char × List Char
  | a :: b :: rest =>
    if a = quote then if b = quote then ([quote, quote], rest) else ([quote], b :: rest)
    else ([], a :: b :: rest)
  | [a] => if a = quote then ([quote], []) else ([], [a])
  | [] => ([], [])

-- A line that ends in a backslash goes on with the next character that is not a blank.
private def isContinued (rest : List Char) : Bool :=
  match rest.dropWhile (fun c => c == ' ' || c == '\t') with
  | '\n' :: _ => true
  | '\x0d' :: '\n' :: _ => true
  | _ => false

-- A quoted text of several lines. `skipping` tells that a line is being continued.
def readQuotedLines (skipping : Bool) : List Char → Option (List Char × List Char)
  | [] => none
  | '\x0d' :: '\n' :: rest =>
    if skipping then readQuotedLines true rest
    else (readQuotedLines false rest).map (before '\n')
  | '"' :: '"' :: '"' :: rest => some (closing '"' rest)
  | '\\' :: 'u' :: a :: b :: c :: d :: rest => do
    return before (← scalar? [a, b, c, d]) (← readQuotedLines false rest)
  | '\\' :: 'U' :: a :: b :: c :: d :: e :: f :: g :: h :: rest => do
    return before (← scalar? [a, b, c, d, e, f, g, h]) (← readQuotedLines false rest)
  | '\\' :: e :: rest =>
    if isContinued (e :: rest) then
      if e = '\x0d' then readQuotedLines true (e :: rest) else readQuotedLines true rest
    else do return before (← simpleEscape? e) (← readQuotedLines false rest)
  | c :: rest =>
    if skipping && (c == ' ' || c == '\t' || c == '\n') then readQuotedLines true rest
    else if isPlain c || c == '\n' then (readQuotedLines false rest).map (before c)
    else none

-- A literal text of several lines.
def readLiteralLines : List Char → Option (List Char × List Char)
  | [] => none
  | '\x0d' :: '\n' :: rest => (readLiteralLines rest).map (before '\n')
  | '\'' :: '\'' :: '\'' :: rest => some (closing '\'' rest)
  | c :: rest =>
    if isPlain c || c == '\n' then (readLiteralLines rest).map (before c) else none

-- A line break right behind the opening quotes does not count.
private def dropBreak : List Char → List Char
  | '\n' :: rest => rest
  | '\x0d' :: '\n' :: rest => rest
  | rest => rest

-- A text in any kind of quotes.
def readText : List Char → Option (List Char × List Char)
  | '"' :: '"' :: '"' :: rest => readQuotedLines false (dropBreak rest)
  | '"' :: rest => readQuoted rest
  | '\'' :: '\'' :: '\'' :: rest => readLiteralLines (dropBreak rest)
  | '\'' :: rest => readLiteral rest
  | _ => none

-- The longest run of a character.
def longestRun (c : Char) (cs : List Char) : Nat :=
  let count : Nat × Nat → Char → Nat × Nat
    | (best, run), d => if d = c then (max best (run + 1), run + 1) else (best, 0)
  (cs.foldl count (0, 0)).1

private def hexDigit (n : Nat) : Char := if n < 10 then Char.ofNat (48 + n) else Char.ofNat (55 + n)

-- A character in a quoted text. In a text of several lines, line breaks stand for themselves.
def escapeChar (lines : Bool) (c : Char) : List Char :=
  if c = '\n' then if lines then ['\n'] else ['\\', 'n']
  else if c = '\t' then ['\\', 't']
  else if c = '\x08' then ['\\', 'b']
  else if c = '\x0c' then ['\\', 'f']
  else if c = '\x0d' then ['\\', 'r']
  else if c = '"' then ['\\', '"']
  else if c = '\\' then ['\\', '\\']
  else if c < ' ' || c = '\x7f' then
    ['\\', 'u', '0', '0', hexDigit (c.toNat / 16), hexDigit (c.toNat % 16)]
  else [c]

-- A text as it is written: in the first form that needs no escape, else with escapes.
def quote (s : String) : String :=
  let cs := s.toList
  let control := cs.any (fun c => c ≠ '\n' && !isPlain c)
  let doubles := longestRun '"' cs
  let singles := longestRun '\'' cs
  let isLines := cs.contains '\n'
  let opening := if isLines then ['\n'] else []
  String.ofList <|
    if !control && !cs.contains '\\' && doubles = 0 && !isLines then
      '"' :: cs.flatMap (escapeChar false) ++ ['"']
    else if !control && singles = 0 && !isLines then '\'' :: cs ++ ['\'']
    else if !control && !cs.contains '\\' && doubles ≤ 2 then
      ['"', '"', '"'] ++ opening ++ cs ++ ['"', '"', '"']
    else if !control && singles ≤ 2 then
      ['\'', '\'', '\''] ++ opening ++ cs ++ ['\'', '\'', '\'']
    else if isLines then
      ['"', '"', '"', '\n'] ++ cs.flatMap (escapeChar true) ++ ['"', '"', '"']
    else '"' :: cs.flatMap (escapeChar false) ++ ['"']

end DocStore.Toml
