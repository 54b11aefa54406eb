namespace DocStore.Word

-- The number fits 64 bits that hold a sign.
def isSigned (n : Int) : Bool :=
  decide (-0x8000000000000000 ≤ n) && decide (n < 0x8000000000000000)

-- The number fits 64 bits without a sign.
def isUnsigned (n : Int) : Bool := decide (0 ≤ n) && decide (n < 0x10000000000000000)

end DocStore.Word
