import LexBase.Table.Basic

/-!
# Removal

Removing an entry leaves no marker behind. The entries after the vacated slot, up to the next vacant one,
are looked at in turn, and one that may stand in the hole moves there and leaves the hole at its own
slot. An entry may move if the hole lies on its way from its home, so a moved entry comes closer to home
and every other entry stays reachable.
-/

namespace LexBase

set_option autoImplicit false

variable {w : Width} {V : Type}

namespace Table

def vacate (t : Table w V) (i : Nat) : Table w V := t.fill i (.null w) none

def shift (t : Table w V) (hole i : Nat) : Table w V :=
  let key := t.key i
  let value := t.value? i
  (t.fill hole key value).vacate i

/-- Closes the gap at `hole`, looking at `steps` slots from `i` on; counts the moved entries. -/
def closeGap (steps : Nat) (t : Table w V) (hole i shifted : Nat) : Table w V × Nat :=
  match steps with
  | 0 => (t, shifted)
  | steps + 1 =>
    let length := t.length
    let key := t.key i
    if key.isNull then (t, shifted)
    else if distance length hole i ≤ distance length (home length key) i then
      closeGap steps (t.shift hole i) i ((i + 1) % length) (shifted + 1)
    else
      closeGap steps t hole ((i + 1) % length) shifted

end Table

structure Removal (w : Width) (V : Type) where
  value : Option V
  table : Table w V
  shifted : Nat

namespace Table

/-- The table with a hole at slot `i`. -/
def take (t : Table w V) (i : Nat) : Table w V :=
  let ⟨keys, values, count⟩ := t.vacate i
  ⟨keys, values, count - 1⟩

/-- Removes the entry at a slot. A vacant slot, or one outside the table, yields nothing. -/
def remove (t : Table w V) (i : Nat) : Removal w V :=
  if (t.key i).isNull then ⟨none, t, 0⟩
  else
    let value := t.value? i
    let length := t.length
    let (t, shifted) := closeGap length (t.take i) i ((i + 1) % length) 0
    ⟨value, t, shifted⟩

end Table

end LexBase
