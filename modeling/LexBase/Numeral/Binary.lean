/-!
# Binary floating-point numbers by their bits

A number is the bit pattern of an interchange format: sign, biased exponent, fraction. The pattern is
kept as it stands, so the payload of a NaN is never lost; `value` reads it as an exact number.
Equality `==` is the numeric one: a NaN differs from everything, and the two zeros are equal.
-/

namespace LexBase

set_option autoImplicit false

structure BinaryFormat where
  exponentBits : Nat
  fractionBits : Nat
deriving DecidableEq, Repr

namespace BinaryFormat

def single : BinaryFormat := ⟨8, 23⟩

def double : BinaryFormat := ⟨11, 52⟩

def bits (f : BinaryFormat) : Nat := f.exponentBits + f.fractionBits + 1

/-- The exponent of the least place of a subnormal number. -/
def leastExponent (f : BinaryFormat) : Int :=
  2 - (Nat.pow 2 (f.exponentBits - 1) + f.fractionBits : Nat)

end BinaryFormat

structure Binary (f : BinaryFormat) where
  bits : BitVec f.bits

abbrev Single := Binary .single

abbrev Double := Binary .double

/-- What a pattern stands for; a finite number is `significand * 2 ^ exponent` under its sign. -/
inductive BinaryValue where
  | nan
  | infinite (negative : Bool)
  | finite (negative : Bool) (significand : Nat) (exponent : Int)
deriving DecidableEq, Repr

namespace Binary

variable {f : BinaryFormat}

def fraction (x : Binary f) : Nat := x.bits.toNat % Nat.pow 2 f.fractionBits

def exponentField (x : Binary f) : Nat :=
  x.bits.toNat / Nat.pow 2 f.fractionBits % Nat.pow 2 f.exponentBits

def isNegative (x : Binary f) : Bool := x.bits.msb

/-- The gap below a power of two is half the gap above it. -/
def narrowBelow (x : Binary f) : Bool := x.fraction == 0 && x.exponentField != 0

def value (x : Binary f) : BinaryValue :=
  if x.exponentField = Nat.pow 2 f.exponentBits - 1 then
    if x.fraction = 0 then .infinite x.isNegative else .nan
  else if x.exponentField = 0 then
    .finite x.isNegative x.fraction f.leastExponent
  else
    .finite x.isNegative (Nat.pow 2 f.fractionBits + x.fraction)
      (f.leastExponent + x.exponentField - 1)

end Binary

/-- Numeric equality of values that come from one format. -/
def BinaryValue.numericEq : BinaryValue → BinaryValue → Bool
  | .infinite s, .infinite t => s == t
  | .finite s m q, .finite t n r => (m == 0 && n == 0) || (s == t && m == n && q == r)
  | _, _ => false

instance {f : BinaryFormat} : BEq (Binary f) where
  beq x y := x.value.numericEq y.value

end LexBase
