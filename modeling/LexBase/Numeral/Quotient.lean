/-!
# Rounded quotients

Quotients of natural numbers: to the nearest integer, and to a given number of significant bits. Both
send a tie to the even neighbour.
-/

namespace LexBase.Quotient

set_option autoImplicit false

def nearest (num den : Nat) : Nat :=
  let q := num / den
  let r := num % den
  if den < 2 * r ∨ (2 * r = den ∧ q % 2 = 1) then q + 1 else q

/-- `num / den`, at least one, first rounded to `precision` significant bits and then up to an integer. -/
def ceilRounded (precision num den : Nat) : Nat :=
  let width := (num / den).log2 + 1
  if width ≤ precision then
    let unit := Nat.pow 2 (precision - width)
    (nearest (num * unit) den + (unit - 1)) / unit
  else
    let unit := Nat.pow 2 (width - precision)
    nearest num (den * unit) * unit

/-- The least `o` with `n ≤ 2 ^ o`. -/
def ceilLog2 (n : Nat) : Nat := if n ≤ 1 then 0 else (n - 1).log2 + 1

end LexBase.Quotient
