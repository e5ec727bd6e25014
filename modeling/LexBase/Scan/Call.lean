import LexBase.Scan.Reader

/-!
# Calls as data

Every call of a reader as a value, so that a history is a list of calls. A refused call answers with its
fault, and the history goes on from whatever the call has left.
-/

namespace LexBase

set_option autoImplicit false

inductive Call where
  | next
  | back
  | peek
  | peekBy (offset : Int64)
  | peekBack
  | peekBackBy (offset : Int64)
  | position
  | seek (target : Nat)
  | advance (offset : Int64)
  | toEnd
  | atEnd
  | atEndBy (offset : Int64)
  | unitAt (index : Nat)
  | units (start stop : Nat)
  | text (start stop : Nat)
  | setMark
  | mark
  | moved
  | length
  | isEmpty
deriving DecidableEq, Repr

inductive Answer (w : Width) where
  | done
  | unit (u : CodeUnit w)
  | units (us : List (CodeUnit w))
  | text (s : String)
  | number (n : Nat)
  | flag (b : Bool)
  | fault (f : Fault)
deriving DecidableEq, Repr

def Answer.of {w : Width} {α : Type} (answer : α → Answer w) : Except Fault α → Answer w
  | .ok a => answer a
  | .error f => .fault f

namespace Call

variable {C : Type} {w : Width}

/-- The answer of an action, and the reader as the action leaves it. -/
def act {α : Type} (answer : α → Answer w) (a : Action C α) (c : C) : Answer w × C :=
  let (outcome, c) := a.on c
  (.of answer outcome, c)

def read {α : Type} (c : C) (answer : α → Answer w) (outcome : Except Fault α) : Answer w × C :=
  (.of answer outcome, c)

variable [Reader C w]

def perform (c : C) : Call → Answer w × C
  | next => act .unit Reader.next c
  | back => act .unit Reader.back c
  | peek => read c .unit (Reader.peek c)
  | peekBy o => read c .unit (Reader.peekBy c o)
  | peekBack => read c .unit (Reader.peekBack c)
  | peekBackBy o => read c .unit (Reader.peekBackBy c o)
  | position => (.number (Reader.position c), c)
  | seek i => act (fun _ => .done) (Reader.seek i) c
  | advance o => act (fun _ => .done) (Reader.advance o) c
  | toEnd => act (fun _ => .done) Reader.toEnd c
  | atEnd => (.flag (Reader.atEnd c), c)
  | atEndBy o => (.flag (Reader.atEndBy c o), c)
  | unitAt i => read c .unit (Reader.unitAt c i)
  | units s e => read c .units (Reader.units c s e)
  | text s e => read c .text (Reader.text c s e)
  | setMark => (.done, Reader.setMark c)
  | mark => (.number (Reader.mark c), c)
  | moved => (.flag (Reader.moved c), c)
  | length => (.number (Reader.length c), c)
  | isEmpty => (.flag (Reader.isEmpty c), c)

end Call

end LexBase
