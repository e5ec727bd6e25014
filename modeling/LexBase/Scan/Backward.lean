import LexBase.Inspect
import LexBase.Scan.Reader

/-!
# Reading backward

A reader turned around. What is ahead of it is behind the reader inside, so each call is answered by the
opposite call of that reader, and the scan ends at index 0. Indices keep their meaning: a range is named
from its larger index down, and its units still come in the order of the buffer.
-/

namespace LexBase

set_option autoImplicit false

structure Backward (C : Type) where
  inner : C

namespace Backward

variable {C : Type} {w : Width} [Reader C w]

def turned {α : Type} (a : Action C α) : Action (Backward C) α := a.within inner mk

/-- The least offset has no opposite. -/
def advance (o : Int64) : Action (Backward C) Unit := do
  let c ← get
  if o = Int64.minValue then throw (.outside (Reader.position c.inner) o)
  else turned (Reader.advance (-o))

instance : Reader (Backward C) w where
  next := turned Reader.back
  back := turned Reader.next
  peek c := Reader.peekBack c.inner
  peekBy c o := Reader.peekBackBy c.inner o
  peekBack c := Reader.peek c.inner
  peekBackBy c o := Reader.peekBy c.inner o
  position c := Reader.position c.inner
  seek i := turned (Reader.seek i)
  advance := advance
  toEnd := turned (Reader.seek 0)
  atEnd c := Reader.position c.inner == 0
  atEndBy c o := (Reader.position c.inner : Int) - o.toInt ≤ 0
  unitAt c i := Reader.unitAt c.inner i
  units c start stop := Reader.units c.inner stop start
  text c start stop := Reader.text c.inner stop start
  setMark c := ⟨Reader.setMark c.inner⟩
  mark c := Reader.mark c.inner
  moved c := Reader.moved c.inner
  length c := Reader.length c.inner

instance [Inspect C] : Inspect (Backward C) where
  form c := .record "ReversedCursor" [("inner", Inspect.form c.inner)]

end Backward

end LexBase
