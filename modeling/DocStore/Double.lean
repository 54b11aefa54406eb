namespace DocStore

-- A binary floating-point number of 64 bits, told apart from others by its bits.
structure Double where
  bits : UInt64
  deriving DecidableEq, Repr, Inhabited, Hashable

namespace Double

-- The first of the bits, which stands for the sign.
def signUnit : Nat := 0x8000000000000000

-- The last of the bits for the exponent. A number above the least of them has it as the first bit
-- of its significand, too.
def exponentUnit : Nat := 0x10000000000000

-- The sign aside, the bits ascend with the number that they stand for.
def magnitude (x : Double) : Nat := x.bits.toNat % signUnit

def isNegative (x : Double) : Bool := decide (signUnit ≤ x.bits.toNat)

def infiniteMagnitude : Nat := 0x7FF0000000000000

def isNaN (x : Double) : Bool := decide (infiniteMagnitude < x.magnitude)

def isInfinite (x : Double) : Bool := decide (x.magnitude = infiniteMagnitude)

def isFinite (x : Double) : Bool := decide (x.magnitude < infiniteMagnitude)

def ofMagnitude (negative : Bool) (magnitude : Nat) : Double :=
  ⟨UInt64.ofNat (if negative then signUnit + magnitude else magnitude)⟩

def nan : Double := ⟨0x7FF8000000000000⟩

def infinity : Double := ofMagnitude false infiniteMagnitude

-- The position on the number line. Both zeros are at the same place; for a NaN it means nothing.
def position (x : Double) : Int := if x.isNegative then -(x.magnitude : Int) else x.magnitude

-- Equality of numbers: a NaN equals nothing, and the two zeros are equal.
def equals (x y : Double) : Bool := !x.isNaN && !y.isNaN && x.position == y.position

-- The order of numbers, in which a NaN takes no part.
def less (x y : Double) : Bool := !x.isNaN && !y.isNaN && decide (x.position < y.position)

-- The whole number `m` and the exponent `q` for which a finite number is `m * 2^q`.
def significand (x : Double) : Nat :=
  if x.magnitude < exponentUnit then x.magnitude else exponentUnit + x.magnitude % exponentUnit

def exponent (x : Double) : Int :=
  if x.magnitude < exponentUnit then -1074 else (x.magnitude / exponentUnit : Nat) - 1075

-- The quotient, rounded to the nearest whole number. A half goes to the even neighbour.
def roundQuotient (num den : Nat) : Nat :=
  let quotient := num / den
  let rest := 2 * (num % den)
  if rest < den then quotient
  else if den < rest then quotient + 1
  else quotient + quotient % 2

-- The exponent of the grid on which a positive quotient is rounded: fine enough for
-- 53 significant bits, and no finer than the least positive number.
def gridExponent (num den : Nat) : Int :=
  let estimate : Int := (num.log2 : Int) - den.log2 - 53
  let scaled := num <<< (-estimate).toNat
  let unit := den <<< estimate.toNat
  let fitted := if 2 * exponentUnit * unit ≤ scaled then estimate + 1 else estimate
  max (-1074) fitted

-- The magnitude nearest to `num / den`, infinite beyond the greatest finite number.
def nearestMagnitude (num den : Nat) : Nat :=
  if num = 0 then 0
  else
    let q := gridExponent num den
    let m := roundQuotient (num <<< (-q).toNat) (den <<< q.toNat)
    min infiniteMagnitude ((q + 1074).toNat * exponentUnit + m)

-- The nearest number to an integer.
def ofInt (n : Int) : Double := ofMagnitude (decide (n < 0)) (nearestMagnitude n.natAbs 1)

def toFloat (x : Double) : Float := Float.ofBits x.bits

-- A NaN that goes through an operation keeps its payload and turns quiet.
def quiet (x : Double) : Double := ⟨x.bits ||| 0x0008000000000000⟩

-- Arithmetic is rounded to nearest. A NaN operand goes through, the first before the second;
-- an operation that has no result gives the NaN whose sign is set.
def arithmetic (op : Float → Float → Float) (x y : Double) : Double :=
  if x.isNaN then x.quiet
  else if y.isNaN then y.quiet
  else
    let result := op x.toFloat y.toFloat
    if result.isNaN then ⟨0xFFF8000000000000⟩ else ⟨result.toBits⟩

def add : Double → Double → Double := arithmetic (· + ·)

def sub : Double → Double → Double := arithmetic (· - ·)

def mul : Double → Double → Double := arithmetic (· * ·)

def div : Double → Double → Double := arithmetic (· / ·)

-- The smaller number, where anything is preferred to a NaN. Of two equal ones, the first.
def minimum (x y : Double) : Double :=
  if x.isNaN then y else if y.less x then y else x

def maximum (x y : Double) : Double :=
  if x.isNaN then y else if x.less y then y else x

end Double

end DocStore
