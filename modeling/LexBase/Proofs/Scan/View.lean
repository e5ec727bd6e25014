import LexBase.Proofs.Scan.Buffer
import LexBase.Scan.Backward
import LexBase.Scan.Lent

/-!
# Views of one reader

A buffer reader can be driven by its own calls and by the calls of a reader turned around over it, each
directly or through a reference, in any mix. Through a reference a call is the same call. A call of the
reader turned around is the opposite call of the reader, but for the questions about the end of the scan
and the one offset that has no opposite. Whatever the mix, the reader stays inside its buffer.
-/

namespace LexBase

set_option autoImplicit false

variable {w : Width}

inductive Direction where
  | forward
  | backward
deriving DecidableEq, Repr

/-- Where a call comes from: the reader itself or a reader turned around over it, and whether that is done
through a reference to the reader. -/
structure View where
  direction : Direction
  lent : Bool
deriving DecidableEq, Repr

namespace Call

variable {C : Type} [Reader C w]

/-- Through a reference a reader answers as it does itself, and what changes is the reader behind it. -/
theorem perform_lent (c : C) (k : Call) :
    k.perform (Lent.mk c) = ((k.perform c).1, ⟨(k.perform c).2⟩) := by
  cases k <;> rfl

theorem perform_backward_lent (c : C) (k : Call) : k.perform (Backward.mk (Lent.mk c)) =
    ((k.perform (Backward.mk c)).1, ⟨⟨(k.perform (Backward.mk c)).2.inner⟩⟩) := by
  cases k with
  | advance o =>
    by_cases ho : o = Int64.minValue
    · subst ho
      rfl
    · simp only [perform, act, Reader.advance, Backward.advance, ho, if_false, Action.on_bind, Action.on_get]
      rfl
  | _ => rfl

end Call

def Direction.perform (d : Direction) (c : BufferReader w) (k : Call) : Answer w × BufferReader w :=
  match d with
  | forward => k.perform c
  | backward => ((k.perform (Backward.mk c)).1, (k.perform (Backward.mk c)).2.inner)

namespace View

def perform (v : View) (c : BufferReader w) (k : Call) : Answer w × BufferReader w :=
  match v.direction, v.lent with
  | d, false => d.perform c k
  | .forward, true => ((k.perform (Lent.mk c)).1, (k.perform (Lent.mk c)).2.inner)
  | .backward, true =>
    ((k.perform (Backward.mk (Lent.mk c))).1, (k.perform (Backward.mk (Lent.mk c))).2.inner.inner)

theorem perform_eq (v : View) (c : BufferReader w) (k : Call) :
    v.perform c k = v.direction.perform c k := by
  obtain ⟨d, lent⟩ := v
  cases lent with
  | false => rfl
  | true =>
    cases d with
    | forward =>
      unfold perform
      rw [Call.perform_lent]
      rfl
    | backward =>
      unfold perform
      rw [Call.perform_backward_lent]
      rfl

end View

/-- The call of the reader inside that answers a call of the reader turned around. -/
def Call.opposite : Call → Option Call
  | next => some back
  | back => some next
  | peek => some peekBack
  | peekBy o => some (peekBackBy o)
  | peekBack => some peek
  | peekBackBy o => some (peekBy o)
  | advance o => if o = Int64.minValue then none else some (advance (-o))
  | toEnd => some (seek 0)
  | atEnd => none
  | atEndBy _ => none
  | units s e => some (units e s)
  | text s e => some (text e s)
  | k => some k

theorem Call.opposite_eq_none {k : Call} (h : k.opposite = none) :
    k = .advance Int64.minValue ∨ k = .atEnd ∨ ∃ o, k = .atEndBy o := by
  cases k with
  | advance o =>
    by_cases ho : o = Int64.minValue
    · exact .inl (congrArg Call.advance ho)
    · have hsome : (advance o).opposite = some (advance (-o)) := if_neg ho
      rw [hsome] at h
      cases h
  | atEnd => exact .inr (.inl rfl)
  | atEndBy o => exact .inr (.inr ⟨o, rfl⟩)
  | _ => cases h

namespace BufferReader

variable {c : BufferReader w}

theorem unturned_read {α : Type} (answer : α → Answer w) (r : Except Fault α) :
    ((Call.read (Backward.mk c) answer r).1, (Call.read (Backward.mk c) answer r).2.inner) =
      Call.read c answer r :=
  rfl

theorem perform_opposite {k k' : Call} (hk : k.opposite = some k') :
    Direction.backward.perform c k = Direction.forward.perform c k' := by
  cases k with
  | advance o =>
    obtain ⟨ho, hopposite⟩ := Option.ite_none_left_eq_some.mp hk
    obtain rfl := Option.some.inj hopposite
    unfold Direction.perform
    simp only [Call.perform, Call.act, Reader.advance, Backward.advance, ho, if_false, Action.on_bind,
      Action.on_get]
    rfl
  | atEnd => cases hk
  | atEndBy o => cases hk
  | peekBy o =>
    obtain rfl := Option.some.inj hk
    unfold Direction.perform Call.perform
    exact unturned_read Answer.unit _
  | _ =>
    obtain rfl := Option.some.inj hk
    rfl

theorem perform_backward_cases (c : BufferReader w) (k : Call) :
    (∃ k', k.opposite = some k' ∧ Direction.backward.perform c k = Direction.forward.perform c k') ∨
      (Direction.backward.perform c k).2 = c := by
  cases hk : k.opposite with
  | some k' => exact .inl ⟨k', rfl, perform_opposite hk⟩
  | none =>
    rcases Call.opposite_eq_none hk with rfl | rfl | ⟨o, rfl⟩
    all_goals exact .inr rfl

theorem perform_backward_leaves (c : BufferReader w) (k : Call) :
    c.Leaves (k.perform (Backward.mk c)).2.inner := by
  change c.Leaves (Direction.backward.perform c k).2
  rcases perform_backward_cases c k with ⟨k', _, heq⟩ | hsame
  · rw [heq]
    exact perform_leaves c k'
  · rw [hsame]
    exact .same

theorem leaves_view (v : View) (c : BufferReader w) (k : Call) : c.Leaves (v.perform c k).2 := by
  rw [v.perform_eq]
  cases v.direction with
  | forward => exact perform_leaves c k
  | backward => exact perform_backward_leaves c k

/-- The reader after a history of calls, each with the view it came through. -/
def after (c : BufferReader w) (hs : List (View × Call)) : BufferReader w :=
  hs.foldl (fun c h => (h.1.perform c h.2).2) c

theorem after_append (hs hs' : List (View × Call)) :
    c.after (hs ++ hs') = (c.after hs).after hs' :=
  List.foldl_append

theorem position_after_le (h : c.position ≤ c.length) (hs : List (View × Call)) :
    (c.after hs).position ≤ (c.after hs).length := by
  induction hs generalizing c with
  | nil => exact h
  | cons call hs ih => exact ih ((leaves_view call.1 c call.2).position_le h)

theorem Inside.after (h : c.Inside) (hs : List (View × Call)) : (c.after hs).Inside := by
  induction hs generalizing c with
  | nil => exact h
  | cons call hs ih => exact ih ((leaves_view call.1 c call.2).inside h)

theorem inside_ofBuffer {buffer : Array (CodeUnit w)} (h : buffer.size < Nat.pow 2 63) :
    (ofBuffer buffer).Inside :=
  ⟨Nat.zero_le _, Nat.zero_le _, h⟩

end BufferReader

end LexBase
