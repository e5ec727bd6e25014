import LexBase.Numeral.Binary

/-!
# Shortest decimals

The shortest decimal of a binary number is the one with the fewest digits among those that read back
as the same number; of two with equally few digits it is the nearer one, and the upper one on a tie.

`Interval` is the set of reals that round to the number, scaled to integers. For one digit, two
digits and so on, only the two neighbours of the number on the decimal grid need a test: if any point
of a grid lies in the interval, one of these does.
-/

namespace LexBase

set_option autoImplicit false

structure Decimal where
  digits : Nat
  exponent : Int
deriving DecidableEq, Repr

namespace Decimal

def length (n : Nat) : Nat := (Nat.toDigits 10 n).length

/-- The exponent of the first digit in scientific form. -/
def leadingExponent (d : Decimal) : Int := d.exponent + length d.digits - 1

def stripZeros (digits : Nat) (exponent : Int) : Decimal :=
  if h : digits ≠ 0 ∧ digits % 10 = 0 then stripZeros (digits / 10) (exponent + 1)
  else ⟨digits, exponent⟩
termination_by digits
decreasing_by omega

end Decimal

/-- The reals between `low / scale` and `high / scale`, with the number itself at `mid / scale`. -/
structure Interval where
  low : Nat
  mid : Nat
  high : Nat
  scale : Nat
  closed : Bool

namespace Interval

/-- The reals that round to `m * 2 ^ q`: half a gap to either side, the ends included for even `m`. -/
def around (m : Nat) (q : Int) (narrow : Bool) : Interval :=
  let up := Nat.pow 2 (q - 2).toNat
  { low := (4 * m - (if narrow then 1 else 2)) * up
    mid := 4 * m * up
    high := (4 * m + 2) * up
    scale := Nat.pow 2 (2 - q).toNat
    closed := m % 2 == 0 }

def holds (i : Interval) (k : Int) (c : Nat) : Bool :=
  let p := c * Nat.pow 10 k.toNat * i.scale
  let r := Nat.pow 10 (-k).toNat
  if i.closed then i.low * r ≤ p && p ≤ i.high * r else i.low * r < p && p < i.high * r

def leadingExponent (i : Interval) : Int :=
  if i.scale ≤ i.mid then Decimal.length (i.mid / i.scale) - 1
  else -(Decimal.length ((i.scale - 1) / i.mid) : Int)

/-- The better of the two neighbours of the number on the grid of step `10 ^ k`, if one reads back. -/
def onGrid? (i : Interval) (k : Int) : Option Decimal :=
  let num := i.mid * Nat.pow 10 (-k).toNat
  let den := i.scale * Nat.pow 10 k.toNat
  let c := num / den
  match i.holds k c, i.holds k (c + 1) with
  | true, true => some ⟨if 2 * (num % den) < den then c else c + 1, k⟩
  | true, false => some ⟨c, k⟩
  | false, true => some ⟨c + 1, k⟩
  | false, false => none

/-- Seventeen digits are enough for every number of at most 53 significant bits. -/
def shortest (i : Interval) : Decimal :=
  let grids := (List.range 17).map fun (n : Nat) => i.leadingExponent - (n : Int)
  match grids.findSome? i.onGrid? with
  | some d => .stripZeros d.digits d.exponent
  | none => ⟨0, 0⟩

end Interval

end LexBase
