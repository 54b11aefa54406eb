import DocStore.Double

namespace DocStore

-- The number `digits * 10^exp`.
structure Decimal where
  digits : Nat
  exp : Int
  deriving DecidableEq, Repr

namespace Decimal

-- The number of decimal digits; zero has one.
def width (n : Nat) : Nat := (Nat.toDigits 10 n).length

-- The magnitude nearest to a decimal. Far outside the range of finite numbers the answer is
-- known from the position of the leading digit.
def nearestMagnitude (d : Decimal) : Nat :=
  if d.digits = 0 then 0
  else
    let leading := d.exp + width d.digits
    if 400 < leading then Double.infiniteMagnitude
    else if leading < -400 then 0
    else Double.nearestMagnitude (d.digits * Nat.pow 10 d.exp.toNat) (Nat.pow 10 (-d.exp).toNat)

def toDouble (negative : Bool) (d : Decimal) : Double :=
  Double.ofMagnitude negative d.nearestMagnitude

-- Compares `a * 10^i` with `n * 2^j`, exactly.
def compareScaled (a : Nat) (i : Int) (n : Nat) (j : Int) : Ordering :=
  compare ((a * Nat.pow 10 i.toNat) <<< (-j).toNat) ((n * Nat.pow 10 (-i).toNat) <<< j.toNat)

-- The end of the rounding interval below a magnitude, in quarters of a unit of its grid. Just
-- above a power of two the numbers below lie twice as close.
def lowEnd (x : Double) : Nat :=
  if x.significand = Double.exponentUnit ∧ -1074 < x.exponent then 4 * x.significand - 1
  else 4 * x.significand - 2

def highEnd (x : Double) : Nat := 4 * x.significand + 2

-- The decimal lies among the reals that round to the sign-free part of the number.
def roundsTo (d : Decimal) (x : Double) : Bool :=
  let low := compareScaled d.digits d.exp (lowEnd x) (x.exponent - 2)
  let high := compareScaled d.digits d.exp (highEnd x) (x.exponent - 2)
  let closed := x.significand % 2 == 0
  (low == .gt || (closed && low == .eq)) && (high == .lt || (closed && high == .eq))

-- Which of two equally close decimals is written.
inductive Tie where
  | toEven
  | up
  deriving DecidableEq, Repr

-- The last of the two neighbours of the number on the grid of `10^exp` that is to be written, if
-- any of them rounds to the number.
def onGrid (tie : Tie) (x : Double) (exp : Int) : Option Decimal :=
  let num := (x.significand * Nat.pow 10 (-exp).toNat) <<< x.exponent.toNat
  let den := Nat.pow 10 exp.toNat <<< (-x.exponent).toNat
  let below : Decimal := ⟨num / den, exp⟩
  let above : Decimal := ⟨num / den + 1, exp⟩
  match below.roundsTo x, above.roundsTo x with
  | false, false => none
  | true, false => some below
  | false, true => some above
  | true, true =>
    match compare (2 * (num % den)) den with
    | .lt => some below
    | .gt => some above
    | .eq =>
      match tie with
      | .up => some above
      | .toEven => some (if below.digits % 2 = 0 then below else above)

-- The least `k` with the number below `10^k`, starting from an estimate that is at most one off.
def leadingExponent (x : Double) : Int :=
  let bits : Int := (x.significand.log2 : Int) + 1 + x.exponent
  let estimate : Int := Int.fdiv (bits * 30103) 100000
  let isAbove (k : Int) : Bool := compareScaled 1 k x.significand x.exponent == .gt
  ([estimate - 1, estimate, estimate + 1].find? isAbove).getD (estimate + 2)

-- Drops the trailing zeros of the digits. `fuel` bounds their number.
def strip : Nat → Decimal → Decimal
  | 0, d => d
  | fuel + 1, d =>
    if d.digits ≠ 0 ∧ d.digits % 10 = 0 then strip fuel ⟨d.digits / 10, d.exp + 1⟩ else d

-- The exact value, for which seventeen digits never have to be replaced.
def exact (x : Double) : Decimal :=
  ⟨(x.significand * Nat.pow 5 (-x.exponent).toNat) <<< x.exponent.toNat, min x.exponent 0⟩

-- The fewest digits that read back as the given positive finite number, and of those the closest.
def shortest (tie : Tie) (x : Double) : Decimal :=
  let k := leadingExponent x
  let found := (List.range 17).findSome? (fun n => onGrid tie x (k - (n + 1 : Nat)))
  let d := found.getD (exact x)
  strip (width d.digits) d

-- How a number is laid out.
structure Notation where
  -- exponents of the leading digit from `plainFrom` up to, and without, `plainBelow` are
  -- written positionally; no bounds means always
  plainFrom : Option Int
  plainBelow : Option Int
  -- whole numbers are written with a zero behind the point
  pointZero : Bool
  tie : Tie

private def zeros (n : Nat) : List Char := List.replicate n '0'

-- The text of a positive decimal.
def layout (style : Notation) (d : Decimal) : List Char :=
  let digits := Nat.toDigits 10 d.digits
  let leading : Int := d.exp + digits.length - 1
  let plain := style.plainFrom.all (· ≤ leading) && style.plainBelow.all (leading < ·)
  if plain then
    if 0 ≤ d.exp then
      digits ++ zeros d.exp.toNat ++ (if style.pointZero then ['.', '0'] else [])
    else if 0 ≤ leading then
      digits.take (leading.toNat + 1) ++ '.' :: digits.drop (leading.toNat + 1)
    else
      '0' :: '.' :: zeros (-leading - 1).toNat ++ digits
  else
    let fraction := match digits.drop 1 with
      | [] => []
      | rest => '.' :: rest
    let sign := if leading < 0 then '-' else '+'
    digits.take 1 ++ fraction ++ 'e' :: sign :: Nat.toDigits 10 leading.natAbs

end Decimal

namespace Double

-- The text of a finite number.
def render (style : Decimal.Notation) (x : Double) : String :=
  let sign := if x.isNegative then ['-'] else []
  let body :=
    if x.magnitude = 0 then
      '0' :: (if style.pointZero then ['.', '0'] else [])
    else Decimal.layout style (Decimal.shortest style.tie x)
  String.ofList (sign ++ body)

end Double

end DocStore
