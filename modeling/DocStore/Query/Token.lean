import DocStore.Text.Alphabetic
import DocStore.Text.Numeric

namespace DocStore

-- The words and marks of the query language. The end of a query has no token of its own.
inductive Token where
  | word (text : String)
  | quoted (text : String)
  | equals
  | less
  | greater
  | caret
  | dollar
  | openParen
  | closeParen
  | openBrace
  | closeBrace
  | comma
  | placeholder
  | and
  | doubleAnd
  | illegal (text : String)
  deriving DecidableEq, Repr, Inhabited

namespace Token

-- The name of a kind of token, as messages show it.
def kindName : Token → String
  | .word _ => "IDENT"
  | .quoted _ => "STRING"
  | .equals => "EQUALS"
  | .less => "LESS"
  | .greater => "GREATER"
  | .caret => "PREFIX"
  | .dollar => "SKIP"
  | .openParen => "LPAREN"
  | .closeParen => "RPAREN"
  | .openBrace => "LBRACE"
  | .closeBrace => "RBRACE"
  | .comma => "COMMA"
  | .placeholder => "PARAM"
  | .and => "AND"
  | .doubleAnd => "AND"
  | .illegal _ => "ILLEGAL"

def literal : Token → String
  | .word text => text
  | .quoted text => text
  | .equals => "="
  | .less => "<"
  | .greater => ">"
  | .caret => "^"
  | .dollar => "$"
  | .openParen => "("
  | .closeParen => ")"
  | .openBrace => "\x7b"
  | .closeBrace => "\x7d"
  | .comma => ","
  | .placeholder => "?"
  | .and => "&"
  | .doubleAnd => "&&"
  | .illegal text => text

-- Conditions may be separated, but need not be.
def isSeparator : Token → Bool
  | .comma => true
  | .and => true
  | .doubleAnd => true
  | _ => false

def isBlank (c : Char) : Bool := c == ' ' || c == '\t' || c == '\n' || c == '\r'

-- A word starts with a letter, an underscore or a digit.
def startsWord (c : Char) : Bool := Text.isAlphabetic c || c == '_' || c.isDigit

def continuesWord (c : Char) : Bool :=
  Text.isAlphabetic c || Text.isNumeric c || c == '_' || c == '.' || c == '-'

-- The marks that make up a token by themselves.
def mark? : Char → Option Token
  | '=' => some .equals
  | '<' => some .less
  | '>' => some .greater
  | '^' => some .caret
  | '$' => some .dollar
  | '(' => some .openParen
  | ')' => some .closeParen
  | '\x7b' => some .openBrace
  | '\x7d' => some .closeBrace
  | ',' => some .comma
  | '?' => some .placeholder
  | _ => none

-- The token at the start of a text without leading blanks, and the text behind it. A quotation
-- without an end takes up the rest of the text.
def next (c : Char) (rest : List Char) : Token × List Char :=
  let word :=
    (Token.word (String.ofList (c :: rest.takeWhile continuesWord)), rest.dropWhile continuesWord)
  match mark? c with
  | some token => (token, rest)
  | none =>
    if c = '&' then
      match rest with
      | '&' :: after => (.doubleAnd, after)
      | _ => (.and, rest)
    else if c = '"' then
      match rest.dropWhile (· ≠ '"') with
      | _ :: after => (.quoted (String.ofList (rest.takeWhile (· ≠ '"'))), after)
      | [] => (.illegal "", [])
    else if startsWord c then word
    else if c = '-' && rest.head?.any Char.isDigit then word
    else (.illegal (String.singleton c), rest)

private theorem dropWhile_length_le {α : Type} (p : α → Bool) (l : List α) :
    (l.dropWhile p).length ≤ l.length := by
  induction l with
  | nil => simp
  | cons a l ih =>
    simp only [List.dropWhile_cons]
    split
    · exact Nat.le_succ_of_le ih
    · exact Nat.le_refl _

-- A token takes up at least one character.
theorem next_length_le (c : Char) (rest : List Char) : (next c rest).2.length ≤ rest.length := by
  have hword := dropWhile_length_le continuesWord rest
  have hquote := dropWhile_length_le (· ≠ '"') rest
  simp only [next]
  split
  · exact Nat.le_refl _
  · split
    · split
      · exact Nat.le_succ _
      · exact Nat.le_refl _
    · split
      · split
        · next h =>
          rw [h] at hquote
          exact Nat.le_trans (Nat.le_succ _) hquote
        · exact Nat.zero_le _
      · split
        · exact hword
        · split
          · exact hword
          · exact Nat.le_refl _

-- The tokens of a text, without the blanks between them.
def scan (text : List Char) : List Token :=
  match text with
  | [] => []
  | c :: rest =>
    if isBlank c then scan rest
    else (next c rest).1 :: scan (next c rest).2
  termination_by text.length
  decreasing_by
    · simp
    · have := next_length_le c rest
      simp only [List.length_cons]
      omega

def ofText (text : String) : List Token := scan text.toList

end Token

end DocStore
