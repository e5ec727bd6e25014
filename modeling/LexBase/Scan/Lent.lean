import LexBase.Inspect
import LexBase.Scan.Reader

/-!
# Lent readers

A reader lent out by reference. Whoever holds the reference drives the reader behind it: every call is
the same call there, also the calls that a reader could do without, and what the call changes is changed
there.
-/

namespace LexBase

set_option autoImplicit false

structure Lent (C : Type) where
  inner : C

namespace Lent

variable {C : Type} {w : Width} [Reader C w]

def lent {α : Type} (a : Action C α) : Action (Lent C) α := a.within inner mk

instance : Reader (Lent C) w where
  next := lent Reader.next
  back := lent Reader.back
  peek c := Reader.peek c.inner
  peekBy c o := Reader.peekBy c.inner o
  peekBack c := Reader.peekBack c.inner
  peekBackBy c o := Reader.peekBackBy c.inner o
  position c := Reader.position c.inner
  seek i := lent (Reader.seek i)
  advance o := lent (Reader.advance o)
  toEnd := lent Reader.toEnd
  atEnd c := Reader.atEnd c.inner
  atEndBy c o := Reader.atEndBy c.inner o
  unitAt c i := Reader.unitAt c.inner i
  units c start stop := Reader.units c.inner start stop
  text c start stop := Reader.text c.inner start stop
  setMark c := ⟨Reader.setMark c.inner⟩
  mark c := Reader.mark c.inner
  moved c := Reader.moved c.inner
  length c := Reader.length c.inner
  isEmpty c := Reader.isEmpty c.inner

instance [Inspect C] : Inspect (Lent C) where
  form c := Inspect.form c.inner

end Lent

end LexBase
