/-!
# Faults

A call that reaches outside the buffer is a mistake of the caller. It is refused with a fault that
names the place, and nothing has moved then.
-/

namespace LexBase

set_option autoImplicit false

inductive Fault where
  /-- A read near the position. -/
  | read (position : Nat) (offset : Int64) (length : Nat)
  /-- A read at an index. -/
  | readAt (index length : Nat)
  /-- A move past the end. -/
  | position (target length : Nat)
  /-- A move before the start. -/
  | beforeStart (position : Nat) (offset : Int64)
  /-- A move by an offset that has no opposite. -/
  | outside (position : Nat) (offset : Int64)
  | range (start stop length : Nat)
deriving DecidableEq, Repr

namespace Fault

/-- An offset always carries its sign. -/
def signed (o : Int64) : String :=
  if 0 ≤ o.toInt then "+" ++ toString o.toInt else toString o.toInt

def outsideBuffer (length : Nat) : String := " outside buffer of length " ++ toString length

def message : Fault → String
  | read p o n => "cursor read at " ++ toString p ++ signed o ++ outsideBuffer n
  | readAt i n => "cursor read at " ++ toString i ++ outsideBuffer n
  | position p n => "cursor position " ++ toString p ++ outsideBuffer n
  | beforeStart p o => "cursor moved before buffer start: " ++ toString p ++ signed o
  | outside p o => "cursor moved outside buffer: " ++ toString p ++ signed o
  | range s e n => "range " ++ toString s ++ ".." ++ toString e ++ outsideBuffer n

end Fault

end LexBase
