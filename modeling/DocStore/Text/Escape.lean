import DocStore.Text.Extender
import DocStore.Text.Unprintable

namespace DocStore.Text

-- A character as messages show it: marks and characters without a form appear by number.
def escapeChar (c : Char) : List Char :=
  if c = '\x00' then ['\\', '0']
  else if c = '\t' then ['\\', 't']
  else if c = '\r' then ['\\', 'r']
  else if c = '\n' then ['\\', 'n']
  else if c = '\'' then ['\\', '\'']
  else if c = '"' then ['\\', '"']
  else if c = '\\' then ['\\', '\\']
  else if isExtender c || isUnprintable c then
    ['\\', 'u', '\x7b'] ++ Nat.toDigits 16 c.toNat ++ ['\x7d']
  else [c]

-- A text between quotes, as messages show it. A single quote stands for itself there.
def quoted (text : String) : String :=
  let inside := text.toList.flatMap (fun c => if c = '\'' then [c] else escapeChar c)
  String.ofList ('"' :: inside ++ ['"'])

end DocStore.Text
