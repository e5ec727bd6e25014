import LexBase.Scan.Fault
import LexBase.Text.Decode

/-!
# Readers

The calls of a reader that goes both ways over code units: reading with and without moving, absolute and
relative moves, ranges as units or text, and a mark that remembers a position and whether the reader has
moved since. A call that may move is an action: it answers or it ends with a fault, and what it has
changed by then stays changed.

Positions are natural numbers, offsets are signed 64-bit words: looking ahead by a negative offset is a
way to look back.
-/

namespace LexBase

set_option autoImplicit false

abbrev Action (C α : Type) := ExceptT Fault (StateM C) α

namespace Action

variable {C D α : Type}

/-- The outcome of an action, and the reader as the action leaves it. -/
def on (a : Action C α) (c : C) : Except Fault α × C := (ExceptT.run a).run c

/-- An action of the reader inside another one. -/
def within (inner : D → C) (wrap : C → D) (a : Action C α) : Action D α := fun d =>
  let (outcome, c) := a.on (inner d)
  (outcome, wrap c)

end Action

class Reader (C : Type) (w : outParam Width) where
  next : Action C (CodeUnit w)
  /-- Moves back by one, onto the unit returned. -/
  back : Action C (CodeUnit w)
  peekBy : C → Int64 → Except Fault (CodeUnit w)
  peekBackBy : C → Int64 → Except Fault (CodeUnit w)
  peek : C → Except Fault (CodeUnit w) := fun c => peekBy c 0
  peekBack : C → Except Fault (CodeUnit w) := fun c => peekBackBy c 0
  position : C → Nat
  seek : Nat → Action C Unit
  advance : Int64 → Action C Unit
  /-- Moves to the end in the direction of the scan. -/
  toEnd : Action C Unit
  /-- Whether the position moved by the offset would be at the end or past it. -/
  atEndBy : C → Int64 → Bool
  atEnd : C → Bool := fun c => atEndBy c 0
  unitAt : C → Nat → Except Fault (CodeUnit w)
  units : C → Nat → Nat → Except Fault (List (CodeUnit w))
  text : C → Nat → Nat → Except Fault String := fun c s e => (units c s e).map decodeText
  /-- Remembers the position and clears `moved`. -/
  setMark : C → C
  mark : C → Nat
  moved : C → Bool
  length : C → Nat
  isEmpty : C → Bool := fun c => length c == 0

end LexBase
