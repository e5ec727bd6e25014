import LexBase.Proofs.Scan.View

/-!
# Exact range checks

What a call is granted, with every place counted in the integers: a read needs its place inside the
buffer, a move may also go to the end, and a range may not be turned around. A call is granted just that,
or it is refused and leaves the reader as it was.
-/

namespace LexBase

set_option autoImplicit false

variable {w : Width}

namespace BufferReader

def between (c : BufferReader w) (s e : Nat) : List (CodeUnit w) := (c.buffer.extract s e).toList

section Replies

def unitReply (c : BufferReader w) (t : Int) : Option (Answer w × BufferReader w) :=
  (c.unit? t).map fun u => (.unit u, c)

def stepReply (c : BufferReader w) (t : Int) (i : Nat) : Option (Answer w × BufferReader w) :=
  (c.stepDue t i).map fun (u, c') => (.unit u, c')

def moveReply (c : BufferReader w) (t : Int) : Option (Answer w × BufferReader w) :=
  (c.moveDue t).map fun (_, c') => (.done, c')

def rangeReply (c : BufferReader w) (answer : List (CodeUnit w) → Answer w) (s e : Nat) :
    Option (Answer w × BufferReader w) :=
  if s ≤ e ∧ e ≤ c.length then some (answer (c.between s e), c) else none

end Replies

/-- The reply that is due to a call, or none if the call has to be refused. -/
def reply (c : BufferReader w) : Direction → Call → Option (Answer w × BufferReader w)
  | .forward, .next | .backward, .back => c.stepReply c.position (c.position + 1)
  | .forward, .back | .backward, .next => c.stepReply (c.position - 1) (c.position - 1)
  | .forward, .peek | .backward, .peekBack => c.unitReply c.position
  | .forward, .peekBack | .backward, .peek => c.unitReply (c.position - 1)
  | .forward, .peekBy o | .backward, .peekBackBy o => c.unitReply (c.position + o.toInt)
  | .forward, .peekBackBy o | .backward, .peekBy o => c.unitReply (c.position - 1 - o.toInt)
  | .forward, .advance o => c.moveReply (c.position + o.toInt)
  | .backward, .advance o => c.moveReply (c.position - o.toInt)
  | .forward, .toEnd => c.moveReply c.length
  | .backward, .toEnd => c.moveReply 0
  | _, .seek i => c.moveReply i
  | .forward, .atEnd => some (.flag (c.length ≤ c.position), c)
  | .backward, .atEnd => some (.flag (c.position == 0), c)
  | .forward, .atEndBy o => some (.flag ((c.length : Int) ≤ c.position + o.toInt), c)
  | .backward, .atEndBy o => some (.flag ((c.position : Int) - o.toInt ≤ 0), c)
  | _, .unitAt i => c.unitReply i
  | .forward, .units s e | .backward, .units e s => c.rangeReply .units s e
  | .forward, .text s e | .backward, .text e s => c.rangeReply (.text ∘ decodeText) s e
  | _, .setMark => some (.done, c.marked)
  | _, .position => some (.number c.position, c)
  | _, .mark => some (.number c.mark, c)
  | _, .moved => some (.flag c.moved, c)
  | _, .length => some (.number c.length, c)
  | _, .isEmpty => some (.flag (c.length == 0), c)

/-- The outcome of a call is the reply due to it, or a fault and the reader as it was. -/
inductive Meets (c : BufferReader w) :
    Option (Answer w × BufferReader w) → Answer w × BufferReader w → Prop where
  | granted (r : Answer w × BufferReader w) : Meets c (some r) r
  | refused (f : Fault) : Meets c none (.fault f, c)

variable {c : BufferReader w}

section Between

theorem between_self (s : Nat) : c.between s s = [] := by
  unfold between
  rw [Array.toList_extract, List.extract_eq_take_drop, Nat.sub_self, List.take_zero]

theorem between_eq_cons {s e : Nat} {u : CodeUnit w} (hu : c.buffer[s]? = some u) (h : s < e) :
    c.between s e = u :: c.between (s + 1) e := by
  obtain ⟨hlt, rfl⟩ := Array.getElem?_eq_some_iff.mp hu
  have hcount : e - s = e - (s + 1) + 1 := by omega
  unfold between
  rw [Array.toList_extract, Array.toList_extract, List.extract_eq_take_drop,
    List.extract_eq_take_drop, hcount, List.drop_eq_getElem_cons (by simpa using hlt),
    List.take_succ_cons, Array.getElem_toList]

theorem between_eq_concat {s e : Nat} {u : CodeUnit w} (hu : c.buffer[e]? = some u) (h : s ≤ e) :
    c.between s (e + 1) = c.between s e ++ [u] := by
  obtain ⟨hlt, rfl⟩ := Array.getElem?_eq_some_iff.mp hu
  unfold between
  rw [Array.extract_succ_right (Nat.lt_succ_of_le h) hlt, Array.toList_push]

theorem length_between (s e : Nat) : (c.between s e).length ≤ c.length := by
  unfold between length
  rw [Array.length_toList, Array.size_extract]
  omega

theorem units_eq_between {s e : Nat} (hle : s ≤ e) (he : e ≤ c.length) :
    c.units s e = .ok (c.between s e) := by
  unfold units
  rw [if_pos ⟨hle, he⟩]
  rfl

end Between

section Kinds

theorem meets_act {α : Type} (answer : α → Answer w) {a : Action (BufferReader w) α}
    {due : Option (α × BufferReader w)} (h : c.Settles due (a.on c)) :
    c.Meets (due.map fun (x, c') => (answer x, c')) (Call.act answer a c) := by
  unfold Call.act
  generalize a.on c = r at h
  cases h with
  | granted x c' => exact .granted _
  | refused f => exact .refused f

theorem meets_unit {r : Except Fault (CodeUnit w)} {t : Int} (h : r.toOption = c.unit? t) :
    c.Meets (c.unitReply t) (Call.read c .unit r) := by
  unfold unitReply
  rw [← h]
  cases r with
  | error f => exact .refused f
  | ok u => exact .granted _

theorem meets_range {α : Type} {answer : α → Answer w} {f : List (CodeUnit w) → α}
    {r : Except Fault α} {s e : Nat} (h : r.toOption = (c.units s e).toOption.map f) :
    c.Meets (c.rangeReply (answer ∘ f) s e) (Call.read c answer r) := by
  unfold rangeReply
  rw [toOption_units] at h
  split at h
  · rename_i hin
    rw [if_pos hin]
    cases r with
    | error g => cases h
    | ok a =>
      obtain rfl := Option.some.inj h
      exact .granted _
  · rename_i hout
    rw [if_neg hout]
    cases r with
    | error g => exact .refused g
    | ok a => cases h

end Kinds

theorem unit?_natCast (i : Nat) : c.unit? i = c.buffer[i]? := by
  unfold unit?
  rw [if_pos (Int.natCast_nonneg i), Int.toNat_natCast]

theorem toOption_peekBackBy (o : Int64) :
    (c.unitBy (-1 - o)).toOption = c.unit? (c.position - 1 - o.toInt) := by
  have hplace : c.target (-1 - o) = c.position - 1 - o.toInt := by
    unfold target
    rw [toInt_neg_one_sub]
    omega
  rw [toOption_unitBy, hplace]

theorem atEnd_eq : Reader.atEnd c = decide (c.length ≤ c.position) := by
  change decide ((c.length : Int) ≤ c.target 0) = _
  rw [target_zero, decide_eq_decide, Int.ofNat_le]

theorem perform_meets_forward (h : c.position ≤ c.length) (k : Call) :
    c.Meets (c.reply .forward k) (Direction.forward.perform c k) := by
  have hpeek := c.toOption_unitBy 0
  rw [target_zero] at hpeek
  cases k with
  | next => exact meets_act .unit next_settles
  | back => exact meets_act .unit (back_settles h)
  | peek => exact meets_unit hpeek
  | peekBy o => exact meets_unit (c.toOption_unitBy o)
  | peekBack =>
    have hback := c.toOption_peekBackBy 0
    rw [Int64.toInt_zero, Int.sub_zero] at hback
    exact meets_unit hback
  | peekBackBy o =>
    unfold Direction.perform Call.perform
    exact meets_unit (toOption_peekBackBy o)
  | seek i => exact meets_act (fun _ => .done) (c.seek_settles i)
  | advance o => exact meets_act (fun _ => .done) (c.advance_settles o)
  | toEnd => exact meets_act (fun _ => .done) (c.seek_settles c.length)
  | atEnd =>
    unfold Direction.perform Call.perform
    rw [atEnd_eq]
    exact .granted _
  | atEndBy o => exact .granted _
  | unitAt i => exact meets_unit (toOption_unitAt i)
  | units s e => exact meets_range (f := id) Option.map_id_apply.symm
  | text s e => exact meets_range (toOption_map decodeText _)
  | _ => exact .granted _

theorem reply_opposite {k k' : Call} (hk : k.opposite = some k') :
    c.reply .backward k = c.reply .forward k' := by
  cases k with
  | advance o =>
    obtain ⟨ho, hopposite⟩ := Option.ite_none_left_eq_some.mp hk
    obtain rfl := Option.some.inj hopposite
    change c.moveReply (c.position - o.toInt) = c.moveReply (c.position + (-o).toInt)
    rw [toInt_neg_of_ne ho, Int.sub_eq_add_neg]
  | atEnd => cases hk
  | atEndBy o => cases hk
  | _ =>
    obtain rfl := Option.some.inj hk
    rfl

theorem reply_least (h : c.Inside) : c.reply .backward (.advance Int64.minValue) = none := by
  have hlen := h.length_lt
  have hpow : Nat.pow 2 63 = 9223372036854775808 := rfl
  have hmin : Int64.minValue.toInt = -9223372036854775808 := rfl
  change c.moveReply (c.position - Int64.minValue.toInt) = none
  unfold moveReply moveDue
  rw [hmin, if_neg (by omega)]
  rfl

theorem perform_meets (h : c.Inside) (v : View) (k : Call) :
    c.Meets (c.reply v.direction k) (v.perform c k) := by
  rw [v.perform_eq]
  cases v.direction with
  | forward => exact perform_meets_forward h.position_le k
  | backward =>
    cases hk : k.opposite with
    | some k' =>
      rw [reply_opposite hk, perform_opposite hk]
      exact perform_meets_forward h.position_le k'
    | none =>
      rcases Call.opposite_eq_none hk with rfl | rfl | ⟨o, rfl⟩
      · rw [reply_least h]
        exact .refused _
      · exact .granted _
      · exact .granted _

end BufferReader

end LexBase
