namespace DocStore

-- How much is reported, from least to most.
inductive LogLevel where
  | error
  | warn
  | info
  | debug
  | trace
  deriving DecidableEq, Repr, Inhabited

namespace LogLevel

def all : List LogLevel := [.error, .warn, .info, .debug, .trace]

def name : LogLevel → String
  | .error => "ERROR"
  | .warn => "WARN"
  | .info => "INFO"
  | .debug => "DEBUG"
  | .trace => "TRACE"

-- A whole number in ASCII digits, with or without a plus in front.
def number? (text : List Char) : Option Nat :=
  let digits := match text with
    | '+' :: rest => rest
    | _ => text
  if digits.isEmpty || !digits.all Char.isDigit then none
  else some (digits.foldl (fun n c => 10 * n + (c.toNat - 48)) 0)

-- A level is given by its name, in any case, or by its place, counted from one.
def ofText? (text : String) : Option LogLevel :=
  match number? text.toList with
  | some n => if n = 0 then none else all[n - 1]?
  | none => all.find? (fun level => level.name.toList == text.toList.map Char.toUpper)

end LogLevel

end DocStore
