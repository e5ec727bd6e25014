/-!
# Code units

A code unit is a byte or a 16-bit word. The zero unit is the null unit: tables use it for "no key",
so it never enters a probe. `spread` scrambles a unit into 32 bits; the home slot of a key is its
spread reduced to the table length. Units of equal value have the same spread at either width.
-/

namespace LexBase

set_option autoImplicit false

inductive Width where
  | byte
  | word
deriving DecidableEq, Repr

namespace Width

def bits : Width → Nat
  | byte => 8
  | word => 16

/-- The number of units that are not null. -/
def domain (w : Width) : Nat := Nat.pow 2 w.bits - 1

@[simp] theorem domain_byte : byte.domain = 255 := rfl

@[simp] theorem domain_word : word.domain = 65535 := rfl

theorem domain_pos (w : Width) : 0 < w.domain := by cases w <;> decide

end Width

abbrev CodeUnit (w : Width) := BitVec w.bits

namespace CodeUnit

variable {w : Width}

def null (w : Width) : CodeUnit w := 0

def isNull (u : CodeUnit w) : Bool := u == null w

/-- The integer reduced to the width, as a counter that wraps around. -/
def wrap (w : Width) (n : Int) : CodeUnit w := BitVec.ofInt w.bits n

def ofNat? (w : Width) (n : Nat) : Option (CodeUnit w) :=
  let u : CodeUnit w := BitVec.ofNat w.bits n
  if u.toNat = n then some u else none

/-- Bijective mixing of a 32-bit word: every input bit reaches every output bit. -/
def mix (h : UInt32) : UInt32 :=
  let h := h ^^^ (h >>> 16)
  let h := 0x85ebca6b * h
  let h := h ^^^ (h >>> 13)
  let h := 0xc2b2ae35 * h
  h ^^^ (h >>> 16)

/-- Keys are often neighbours, as letters are; mixed, they spread over the whole table. -/
def spread (u : CodeUnit w) : UInt32 := mix (UInt32.ofNat u.toNat)

theorem toNat_injective {u v : CodeUnit w} (h : u.toNat = v.toNat) : u = v :=
  BitVec.eq_of_toNat_eq h

@[simp] theorem isNull_iff (u : CodeUnit w) : u.isNull = true ↔ u = null w := by
  simp [isNull]

end CodeUnit

end LexBase
