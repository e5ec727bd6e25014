import LexBase.Inspect
import LexBase.Scan.Reader

/-!
# Buffer readers

The reader of a buffer of code units, from left to right. Every move goes through `seek`, which checks its
target before it writes the flag and the position.
-/

namespace LexBase

set_option autoImplicit false

structure BufferReader (w : Width) where
  buffer : Array (CodeUnit w)
  position : Nat
  mark : Nat
  moved : Bool

namespace BufferReader

variable {w : Width}

def ofBuffer (buffer : Array (CodeUnit w)) : BufferReader w := ⟨buffer, 0, 0, false⟩

def length (c : BufferReader w) : Nat := c.buffer.size

/-- Going to the same position is no move. -/
def seek (target : Nat) : Action (BufferReader w) Unit := do
  let c ← get
  if target ≤ c.length then
    modify fun c => { c with moved := c.moved || target != c.position }
    modify fun c => { c with position := target }
  else throw (.position target c.length)

/-- The place that an offset leads to; below zero it is outside the buffer. -/
def target (c : BufferReader w) (o : Int64) : Int := c.position + o.toInt

def unitBy (c : BufferReader w) (o : Int64) : Except Fault (CodeUnit w) :=
  if 0 ≤ c.target o then
    match c.buffer[(c.target o).toNat]? with
    | some u => .ok u
    | none => .error (.read c.position o c.length)
  else .error (.read c.position o c.length)

def advance (o : Int64) : Action (BufferReader w) Unit := do
  let c ← get
  if 0 ≤ c.target o then seek (c.target o).toNat
  else throw (.beforeStart c.position o)

def next : Action (BufferReader w) (CodeUnit w) := do
  let c ← get
  let u ← ofExcept (c.unitBy 0)
  seek (c.position + 1)
  return u

def back : Action (BufferReader w) (CodeUnit w) := do
  let c ← get
  let u ← ofExcept (c.unitBy (-1))
  seek (c.position - 1)
  return u

def toEnd : Action (BufferReader w) Unit := do
  let c ← get
  seek c.length

def unitAt (c : BufferReader w) (i : Nat) : Except Fault (CodeUnit w) :=
  match c.buffer[i]? with
  | some u => .ok u
  | none => .error (.readAt i c.length)

def units (c : BufferReader w) (start stop : Nat) : Except Fault (List (CodeUnit w)) :=
  if start ≤ stop ∧ stop ≤ c.length then .ok (c.buffer.extract start stop).toList
  else .error (.range start stop c.length)

instance : Reader (BufferReader w) w where
  next := next
  back := back
  peekBy := unitBy
  peekBackBy c o := c.unitBy (-1 - o)
  position := position
  seek := seek
  advance := advance
  toEnd := toEnd
  atEndBy c o := (c.length : Int) ≤ c.target o
  unitAt := unitAt
  units := units
  setMark c := { c with mark := c.position, moved := false }
  mark := mark
  moved := moved
  length := length

instance : Inspect (BufferReader w) where
  form c := .record "BufferCursor"
    [("buf", .list (c.buffer.toList.map Inspect.form)), ("pos", Inspect.form c.position),
      ("mark_pos", Inspect.form c.mark), ("changed", Inspect.form c.moved)]

end BufferReader

end LexBase
