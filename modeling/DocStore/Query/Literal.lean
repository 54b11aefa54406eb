import DocStore.Double.Decimal
import DocStore.Json

-- Operands as a query writes them.
namespace DocStore.Literal

-- A run of decimal digits, and what follows it.
def digits (text : List Char) : List Char × List Char :=
  (text.takeWhile Char.isDigit, text.dropWhile Char.isDigit)

def digitsValue (digits : List Char) : Nat :=
  digits.foldl (fun n c => 10 * n + (c.toNat - 48)) 0

-- The exponent that makes up the rest of a number; nothing stands for zero.
def exponent? : List Char → Option Int
  | [] => some 0
  | c :: rest =>
    if c ≠ 'e' ∧ c ≠ 'E' then none
    else
      let (negative, rest) := match rest with
        | '-' :: rest => (true, rest)
        | '+' :: rest => (false, rest)
        | _ => (false, rest)
      match digits rest with
      | ([], _) => none
      | (ds, []) => some (if negative then -(digitsValue ds : Int) else digitsValue ds)
      | _ => none

-- Digits with at most one point, of which one side may be empty, and an exponent.
def decimal? (text : List Char) : Option Decimal :=
  let (whole, rest) := digits text
  let (fraction, rest) := match rest with
    | '.' :: rest => digits rest
    | _ => ([], rest)
  if whole.isEmpty && fraction.isEmpty then none
  else (exponent? rest).map (fun e => ⟨digitsValue (whole ++ fraction), e - fraction.length⟩)

-- A number without its sign: a decimal, or the name of a number that is not finite in any case.
def unsigned? (negative : Bool) (text : List Char) : Option Double :=
  match text.map Char.toLower with
  | ['i', 'n', 'f'] => some (Double.ofMagnitude negative Double.infiniteMagnitude)
  | ['i', 'n', 'f', 'i', 'n', 'i', 't', 'y'] =>
    some (Double.ofMagnitude negative Double.infiniteMagnitude)
  | ['n', 'a', 'n'] => some (Double.ofMagnitude negative Double.nan.magnitude)
  | _ => (decimal? text).map (Decimal.toDouble negative)

-- The nearest number to what a text writes.
def number? (text : String) : Option Double :=
  match text.toList with
  | '-' :: rest => unsigned? true rest
  | '+' :: rest => unsigned? false rest
  | rest => unsigned? false rest

-- An operand without quotes is a boolean or a number if it can be read as one, else a text.
def value (text : String) : Value :=
  if text = "true" then .bool true
  else if text = "false" then .bool false
  else match number? text with
    | some x => .float x
    | none => .string text

-- Numbers are written positionally, as far as it takes, and whole ones without a point.
def numbers : Decimal.Notation where
  plainFrom := none
  plainBelow := none
  pointZero := false
  tie := .up

def renderNumber (x : Double) : String :=
  if x.isNaN then "NaN"
  else if x.isFinite then x.render numbers
  else if x.isNegative then "-inf" else "inf"

-- The text of an operand. Lists and objects have no form that could be read again.
def render : Value → String
  | .string s => "\"" ++ s ++ "\""
  | .float x => renderNumber x
  | .int n => toString n.toInt
  | .bool true => "true"
  | .bool false => "false"
  | .null => "null"
  | container => Json.renderValue container

end DocStore.Literal
