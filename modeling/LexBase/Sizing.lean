import LexBase.Error
import LexBase.Numeral.Quotient
import LexBase.Search

/-!
# Sizing

The geometry of a table: a length that is a power of two, and the number of entries beyond which the
table grows. A load factor is an exact fraction strictly between 0 and 1, so the threshold stays below
the length and some slot is always vacant. The threshold is cut off the exact product of the two: in double
precision it is the same.
-/

namespace LexBase

set_option autoImplicit false

/-- The fraction `num / 2 ^ scale`, with a numerator of at most 24 bits. -/
structure LoadFactor where
  num : Nat
  scale : Nat
  num_pos : 0 < num
  num_lt : num < Nat.pow 2 24
  lt_one : num < Nat.pow 2 scale

namespace LoadFactor

def standard : LoadFactor := ⟨3, 2, by decide, by decide, by decide⟩

def ofSingle? (x : Single) : Option LoadFactor :=
  match x.value with
  | .finite false m q =>
    let scale := (-q).toNat
    if h : 0 < m ∧ m < Nat.pow 2 24 ∧ m < Nat.pow 2 scale then some ⟨m, scale, h.1, h.2.1, h.2.2⟩
    else none
  | _ => none

/-- The slots that `n` entries ask for: the quotient at 53 bits, rounded up. -/
def slotsFor (lf : LoadFactor) (n : Nat) : Nat :=
  Quotient.ceilRounded 53 (n * Nat.pow 2 lf.scale) lf.num

end LoadFactor

structure Sizing where
  order : Nat
  loadFactor : LoadFactor

namespace Sizing

def defaultCapacity : Nat := 16

def length (s : Sizing) : Nat := Nat.pow 2 s.order

/-- The most entries the table holds without growing. -/
def threshold (s : Sizing) : Nat :=
  min (s.length * s.loadFactor.num / Nat.pow 2 s.loadFactor.scale) (s.length - 1)

/-- Room for more keys than there are non-null units is never needed. -/
def clamp (target domain : Nat) : Nat := max 1 (min target domain)

/-- The first length, from the quotient upwards, whose threshold reaches the target. -/
def forTarget (target : Nat) (lf : LoadFactor) (domain : Nat) : Sizing :=
  let n := clamp target domain
  let first := Quotient.ceilLog2 (max 2 (lf.slotsFor n))
  let fits (order : Nat) : Option Nat := if n ≤ threshold ⟨order, lf⟩ then some order else none
  ⟨(firstSome fits first (64 - first)).getD first, lf⟩

def nextTarget (s : Sizing) : Nat := max (s.threshold * 2) (s.threshold + 1)

/-- A capacity is judged before a load factor. -/
def accept (capacity : Nat) (loadFactor : Single) : Except ConfigError LoadFactor :=
  if capacity < 1 then .error (.capacity capacity)
  else
    match LoadFactor.ofSingle? loadFactor with
    | some lf => .ok lf
    | none => .error (.loadFactor loadFactor)

end Sizing

end LexBase
