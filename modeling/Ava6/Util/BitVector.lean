import Ava6.Util.Integer

/-! The class of bit-vector values: a size and an integer, with the operations as they compute on the
integer. Bit-vectors of SMT-LIB are those of the library, and a value represents one of them.
-/

namespace Ava6.Util

open Integer

structure BitVector where
  size : UInt32
  value : Int
deriving DecidableEq

namespace BitVector

/-- All other constructors but those of zero and of numerals do the same. -/
def ofInteger (size : UInt32) (val : Int) : BitVector := ⟨size, modByPow2 val size⟩

def ofSize (size : UInt32) : BitVector := ⟨size, 0⟩

def ofUInt32 (size : UInt32) (z : UInt32) : BitVector := ofInteger size z.toNat

def ofUInt64 (size : UInt32) (z : UInt64) : BitVector := ofInteger size z.toNat

def ofBitVector (size : UInt32) (q : BitVector) : BitVector := ofInteger size q.value

/-- The size of a numeral in base two, ten or sixteen. -/
def numeralSize (num : List Nat) (base : Nat) : Nat :=
  match base with
  | 10 => length (ofDigits base num)
  | 16 => num.length * 4
  | _ => num.length

def ofNumeral (num : List Nat) (base : Nat) : BitVector :=
  ⟨UInt32.ofNat (numeralSize num base), ofDigits base num⟩

def toSignedInteger (a : BitVector) : Int :=
  let signBit := extractBitRange a.value 1 (a.size - 1)
  let val := extractBitRange a.value (a.size - 1) 0
  (-1) * multiplyByPow2 signBit (a.size - 1) + val

def setBit (a : BitVector) (i : UInt32) (value : Bool) : BitVector :=
  { a with value := Integer.setBit a.value i.toNat value }

def concat (a other : BitVector) : BitVector :=
  ofInteger (a.size + other.size) (multiplyByPow2 a.value other.size + other.value)

def extract (a : BitVector) (high low : UInt32) : BitVector :=
  ofInteger (high - low + 1) (extractBitRange a.value (high - low + 1) low)

def lessThan (a b : BitVector) : Bool := decide (a.value < b.value)

def lessThanEq (a b : BitVector) : Bool := decide (a.value ≤ b.value)

def greaterThan (a b : BitVector) : Bool := decide (a.value > b.value)

def greaterThanEq (a b : BitVector) : Bool := decide (a.value ≥ b.value)

def unsignedLessThan (a y : BitVector) : Bool := decide (a.value < y.value)

def unsignedLessThanEq (a y : BitVector) : Bool := decide (a.value ≤ y.value)

def signedLessThan (a y : BitVector) : Bool := decide (a.toSignedInteger < y.toSignedInteger)

def signedLessThanEq (a y : BitVector) : Bool := decide (a.toSignedInteger ≤ y.toSignedInteger)

def xor (a b : BitVector) : BitVector := ofInteger a.size (bitwiseXor a.value b.value)

def or (a b : BitVector) : BitVector := ofInteger a.size (bitwiseOr a.value b.value)

def and (a b : BitVector) : BitVector := ofInteger a.size (bitwiseAnd a.value b.value)

def not (a : BitVector) : BitVector := ofInteger a.size (bitwiseNot a.value)

def add (a b : BitVector) : BitVector := ofInteger a.size (a.value + b.value)

def sub (a b : BitVector) : BitVector := (a.add b.not).add (ofInteger a.size 1)

def neg (a : BitVector) : BitVector := a.not.add (ofInteger a.size 1)

def mul (a b : BitVector) : BitVector := ofInteger a.size (a.value * b.value)

def unsignedDivTotal (a y : BitVector) : BitVector :=
  if y.value = 0 then ofInteger a.size (oneExtend 1 1 (a.size - 1))
  else ofInteger a.size (floorDivideQuotient a.value y.value)

def unsignedRemTotal (a y : BitVector) : BitVector :=
  if y.value = 0 then ofInteger a.size a.value
  else ofInteger a.size (floorDivideRemainder a.value y.value)

def zeroExtend (a : BitVector) (n : UInt32) : BitVector := ofInteger (a.size + n) a.value

def signExtend (a : BitVector) (n : UInt32) : BitVector :=
  let signBit := extractBitRange a.value 1 (a.size - 1)
  if signBit = 0 then ofInteger (a.size + n) a.value
  else ofInteger (a.size + n) (oneExtend a.value a.size n)

def leftShift (a y : BitVector) : BitVector :=
  if y.value > a.size.toNat then ofInteger a.size 0
  else if y.value = 0 then a
  else ofInteger a.size (multiplyByPow2 a.value (toUnsignedInt y.value))

def logicalRightShift (a y : BitVector) : BitVector :=
  if y.value > a.size.toNat then ofInteger a.size 0
  else ofInteger a.size (divByPow2 a.value (toUnsignedInt y.value))

def arithRightShift (a y : BitVector) : BitVector :=
  let signBit := extractBitRange a.value 1 (a.size - 1)
  if y.value > a.size.toNat then
    if signBit = 0 then ofInteger a.size 0
    else ofInteger a.size (multiplyByPow2 a.size.toNat a.size - 1)
  else if y.value = 0 then a
  else
    let amount := toUnsignedInt y.value
    let rest := divByPow2 a.value amount
    if signBit = 0 then ofInteger a.size rest
    else ofInteger a.size (oneExtend rest (a.size - amount) amount)

def mkZero (size : UInt32) : BitVector := ofSize size

def mkOne (size : UInt32) : BitVector := ofUInt32 size 1

def mkOnes (size : UInt32) : BitVector := (ofInteger 1 1).signExtend (size - 1)

def mkMinSigned (size : UInt32) : BitVector := (ofSize size).setBit (size - 1) true

def mkMaxSigned (size : UInt32) : BitVector := (mkMinSigned size).not

end BitVector

end Ava6.Util
