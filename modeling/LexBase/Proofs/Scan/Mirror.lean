import LexBase.Proofs.Scan.DoubleReversal
import LexBase.Proofs.Scan.View

/-!
# The mirror image of a reader

A reader turned around behaves as a reader of the reversed buffer does, once every index is counted
from the other end. The image of a call is the same call with its indices recounted; a call that names
a place outside the buffer has no image and is refused.
-/

namespace LexBase

set_option autoImplicit false

variable {w : Width}

namespace Call

/-- The call that does the same in a reversed buffer of `n` units. The text of a range has to be
decoded from its units in their own order, so its image asks for the units. -/
def mirror (n : Nat) : Call → Option Call
  | seek i => if i ≤ n then some (seek (n - i)) else none
  | unitAt i => if i < n then some (unitAt (n - 1 - i)) else none
  | units s e => if s ≤ n ∧ e ≤ n then some (units (n - s) (n - e)) else none
  | text s e => if s ≤ n ∧ e ≤ n then some (units (n - s) (n - e)) else none
  | k => some k

/-- The answer to a call, told from the answer to its image. -/
def recount (n : Nat) : Call → Answer w → Answer w
  | position, .number i => .number (n - i)
  | mark, .number i => .number (n - i)
  | units _ _, .units us => .units us.reverse
  | text _ _, .units us => .text (decodeText us.reverse)
  | _, a => a

variable {n : Nat} {k : Call}

@[simp] theorem recount_done : k.recount n (.done : Answer w) = .done := by
  cases k <;> rfl

@[simp] theorem recount_unit (u : CodeUnit w) : k.recount n (.unit u) = .unit u := by
  cases k <;> rfl

@[simp] theorem recount_flag (b : Bool) : k.recount n (.flag b : Answer w) = .flag b := by
  cases k <;> rfl

@[simp] theorem recount_fault (f : Fault) : k.recount n (.fault f : Answer w) = .fault f := by
  cases k <;> rfl

end Call

namespace BufferReader

variable {c : BufferReader w}

/-- The reader of the reversed buffer at the same place, seen from the other end. -/
def mirror (c : BufferReader w) : BufferReader w :=
  ⟨c.buffer.reverse, c.length - c.position, c.length - c.mark, c.moved⟩

@[simp] theorem length_mirror : c.mirror.length = c.length := Array.size_reverse

theorem unit?_mirror {t u : Int} (h : t + u + 1 = c.length) : c.mirror.unit? t = c.unit? u := by
  by_cases hin : 0 ≤ t ∧ t < c.length
  · unfold unit? mirror
    rw [if_pos hin.1, if_pos (by omega)]
    refine Array.getElem?_reverse' ?_
    unfold length at h hin
    omega
  · have hlen : c.mirror.length = c.length := length_mirror
    rw [unit?_eq_none (by omega), unit?_eq_none (by omega)]

theorem mirror_placed (h : c.Inside) {i j : Nat} (hi : i + j = c.length) :
    (c.placed i).mirror = c.mirror.placed j := by
  have hpos := h.position_le
  have hmoved : (i != c.position) = (j != c.length - c.position) := by
    rw [Bool.eq_iff_iff, bne_iff_ne, bne_iff_ne]
    omega
  have hplace : c.length - i = j := by omega
  unfold mirror placed
  simp only [hmoved]
  exact congrArg (fun p => BufferReader.mk _ p _ _) hplace

section Steps

variable {n : Nat} {k : Call}

/-- An outcome of the reader turned around, and the outcome of the image of the call. -/
structure Mirrors (n : Nat) (k : Call) (x : Answer w × Backward (BufferReader w))
    (y : Answer w × BufferReader w) : Prop where
  answer_eq : x.1.blurred = (k.recount n y.1).blurred
  reader_eq : x.2.inner.mirror = y.2

def mirrored {α : Type} (due : Option (α × BufferReader w)) : Option (α × BufferReader w) :=
  due.map fun (x, c') => (x, c'.mirror)

namespace Mirrors

theorem settles {α : Type} {answer : α → Answer w} {due : Option (α × BufferReader w)}
    {x y : Except Fault α × BufferReader w} (hx : c.Settles due x)
    (hy : c.mirror.Settles (mirrored due) y) (hanswer : ∀ u, k.recount n (answer u) = answer u) :
    Mirrors n k (.of answer x.1, ⟨x.2⟩) (.of answer y.1, y.2) := by
  cases hx with
  | granted u c' =>
    cases hy
    exact ⟨congrArg Answer.blurred (hanswer u).symm, rfl⟩
  | refused f =>
    cases hy
    exact ⟨by simp [Answer.of, Answer.blurred], rfl⟩

theorem read {α β : Type} {answer : α → Answer w} {answer' : β → Answer w} {f : β → α}
    {r : Except Fault α} {r' : Except Fault β} (h : r.toOption = r'.toOption.map f)
    (hanswer : ∀ b, k.recount n (answer' b) = answer (f b)) :
    Mirrors n k (Call.read (Backward.mk c) answer r) (Call.read c.mirror answer' r') := by
  cases r with
  | error g =>
    cases r' with
    | error g' => exact ⟨by simp [Call.read, Answer.of, Answer.blurred], rfl⟩
    | ok b => cases h
  | ok a =>
    cases r' with
    | error g => cases h
    | ok b =>
      obtain rfl := Option.some.inj h
      exact ⟨congrArg Answer.blurred (hanswer b).symm, rfl⟩

theorem readUnit {r r' : Except Fault (CodeUnit w)} (h : r.toOption = r'.toOption) :
    Mirrors n k (Call.read (Backward.mk c) .unit r) (Call.read c.mirror .unit r') :=
  .read (f := id) (h.trans Option.map_id_apply.symm) Call.recount_unit

theorem number {i i' : Nat} (h : k.recount n (.number i' : Answer w) = .number i) :
    Mirrors n k (.number i, Backward.mk c) (.number i', c.mirror) :=
  ⟨congrArg Answer.blurred h.symm, rfl⟩

theorem flag {b b' : Bool} (h : b = b') :
    Mirrors n k (.flag b, Backward.mk c) (.flag b', c.mirror) := by
  rw [h]
  exact ⟨congrArg Answer.blurred (Call.recount_flag b').symm, rfl⟩

end Mirrors

theorem peek_mirror (h : c.Inside) (o : Int64) :
    (c.unitBy o).toOption = (c.mirror.unitBy (-1 - o)).toOption := by
  have hpos := h.position_le
  have hplace : c.mirror.position = c.length - c.position := rfl
  rw [toOption_unitBy, toOption_unitBy]
  refine (unit?_mirror ?_).symm
  unfold target
  rw [toInt_neg_one_sub]
  omega

theorem peekBack_mirror (h : c.Inside) (o : Int64) :
    (c.unitBy (-1 - o)).toOption = (c.mirror.unitBy o).toOption := by
  have hpos := h.position_le
  have hplace : c.mirror.position = c.length - c.position := rfl
  rw [toOption_unitBy, toOption_unitBy]
  refine (unit?_mirror ?_).symm
  unfold target
  rw [toInt_neg_one_sub]
  omega

theorem back_mirror (h : c.Inside) : mirrored (c.stepDue (c.position - 1) (c.position - 1)) =
    c.mirror.stepDue c.mirror.position (c.mirror.position + 1) := by
  have hpos := h.position_le
  have hplace : c.mirror.position = c.length - c.position := rfl
  unfold mirrored stepDue
  rw [unit?_mirror (u := (c.position : Int) - 1) (by omega)]
  cases hu : c.unit? ((c.position : Int) - 1) with
  | none => rfl
  | some u =>
    have hstep : 0 < c.position := by
      apply Nat.pos_of_ne_zero
      intro hzero
      rw [unit?_eq_none (by omega)] at hu
      cases hu
    simp only [Option.map_some]
    rw [mirror_placed h (j := c.mirror.position + 1) (by omega)]

theorem next_mirror (h : c.Inside) : mirrored (c.stepDue c.position (c.position + 1)) =
    c.mirror.stepDue (c.mirror.position - 1) (c.mirror.position - 1) := by
  have hpos := h.position_le
  have hplace : c.mirror.position = c.length - c.position := rfl
  unfold mirrored stepDue
  rw [unit?_mirror (u := (c.position : Int)) (by omega)]
  cases hu : c.unit? (c.position : Int) with
  | none => rfl
  | some u =>
    have hstep : c.position < c.length := by
      apply Nat.lt_of_not_le
      intro hend
      rw [unit?_eq_none (by omega)] at hu
      cases hu
    simp only [Option.map_some]
    rw [mirror_placed h (j := c.mirror.position - 1) (by omega)]

theorem move_mirror (h : c.Inside) {t u : Int} (htu : t + u = c.length) :
    mirrored (c.moveDue t) = c.mirror.moveDue u := by
  unfold mirrored moveDue
  rw [length_mirror]
  by_cases hin : 0 ≤ t ∧ t ≤ c.length
  · rw [if_pos hin, if_pos (by omega)]
    simp only [Option.map_some]
    rw [mirror_placed h (j := u.toNat) (by omega)]
  · rw [if_neg hin, if_neg (by omega)]
    rfl

/-- The offset that has no opposite leads out of the buffer. -/
theorem advance_backward_settles (h : c.Inside) (o : Int64) :
    ∃ x, (Backward.advance o).on (Backward.mk c) = (x.1, ⟨x.2⟩) ∧
      c.Settles (c.moveDue (c.position - o.toInt)) x := by
  have hpos := h.position_le
  have hlen := h.length_lt
  have hpow : Nat.pow 2 63 = 9223372036854775808 := rfl
  by_cases hmin : o = Int64.minValue
  · have hint : o.toInt = -9223372036854775808 := by
      rw [hmin]
      rfl
    have hdue : c.moveDue (c.position - o.toInt) = none := if_neg (by omega)
    refine ⟨(.error (.outside c.position o), c), by simp [Backward.advance, hmin]; rfl, ?_⟩
    rw [hdue]
    exact .refused _
  · have hback : c.target (-o) = c.position - o.toInt := by
      unfold target
      rw [toInt_neg_of_ne hmin]
      exact Int.sub_eq_add_neg.symm
    rw [← hback]
    exact ⟨(advance (-o)).on c, by simp [Backward.advance, hmin]; rfl, c.advance_settles (-o)⟩

theorem atEnd_mirror (h : c.Inside) :
    Reader.atEnd (Backward.mk c) = Reader.atEnd c.mirror := by
  have hpos := h.position_le
  have hplace : c.mirror.position = c.length - c.position := rfl
  change (c.position == 0) = decide ((c.mirror.length : Int) ≤ c.mirror.target 0)
  rw [length_mirror, target_zero, Bool.eq_iff_iff, beq_iff_eq, decide_eq_true_iff]
  omega

theorem atEndBy_mirror (h : c.Inside) (o : Int64) :
    Reader.atEndBy (Backward.mk c) o = Reader.atEndBy c.mirror o := by
  have hpos := h.position_le
  have hplace : c.mirror.position = c.length - c.position := rfl
  have htarget : c.mirror.target o = c.mirror.position + o.toInt := rfl
  change decide ((c.position : Int) - o.toInt ≤ 0) =
    decide ((c.mirror.length : Int) ≤ c.mirror.target o)
  rw [length_mirror, Bool.eq_iff_iff, decide_eq_true_iff, decide_eq_true_iff]
  omega

theorem unitAt_mirror {i : Nat} (hi : i < c.length) :
    (c.unitAt i).toOption = (c.mirror.unitAt (c.length - 1 - i)).toOption := by
  rw [toOption_unitAt, toOption_unitAt]
  exact (unit?_mirror (by omega)).symm

theorem units_mirror {s e : Nat} (hs : s ≤ c.length) (he : e ≤ c.length) :
    (c.units e s).toOption =
      (c.mirror.units (c.length - s) (c.length - e)).toOption.map List.reverse := by
  rw [toOption_units, toOption_units, length_mirror]
  by_cases hle : e ≤ s
  · rw [if_pos ⟨hle, hs⟩, if_pos (by omega), Option.map_some]
    unfold mirror
    rw [Array.extract_reverse, Array.toList_reverse, List.reverse_reverse]
    have hback : ∀ i, i ≤ c.length → c.buffer.size - (c.length - i) = i := by
      intro i hi
      exact Nat.sub_sub_self hi
    rw [hback e he, hback s hs]
  · rw [if_neg (by omega), if_neg (by omega)]
    rfl

/-- One step: a call of the reader turned around is its image on the reversed buffer. -/
theorem perform_mirror (h : c.Inside) {k k' : Call} (hk : k.mirror c.length = some k') :
    Mirrors c.length k (k.perform (Backward.mk c)) (k'.perform c.mirror) := by
  have hplace : c.mirror.position = c.length - c.position := rfl
  have hle : c.mirror.position ≤ c.mirror.length := by
    rw [length_mirror, hplace]
    exact Nat.sub_le _ _
  cases k with
  | next =>
    obtain rfl := Option.some.inj hk
    exact .settles (c.back_settles h.position_le) (back_mirror h ▸ next_settles) Call.recount_unit
  | back =>
    obtain rfl := Option.some.inj hk
    exact .settles c.next_settles (next_mirror h ▸ back_settles hle) Call.recount_unit
  | peek =>
    obtain rfl := Option.some.inj hk
    have hread : (Reader.peek (Backward.mk c)).toOption = (Reader.peek c.mirror).toOption :=
      peekBack_mirror h 0
    exact .readUnit hread
  | peekBy o =>
    obtain rfl := Option.some.inj hk
    unfold Call.perform
    exact .readUnit (peekBack_mirror h o)
  | peekBack =>
    obtain rfl := Option.some.inj hk
    have hread : (Reader.peekBack (Backward.mk c)).toOption = (Reader.peekBack c.mirror).toOption :=
      peek_mirror h 0
    exact .readUnit hread
  | peekBackBy o =>
    obtain rfl := Option.some.inj hk
    unfold Call.perform
    exact .readUnit (peek_mirror h o)
  | position =>
    obtain rfl := Option.some.inj hk
    exact .number (congrArg Answer.number (Nat.sub_sub_self h.position_le))
  | seek i =>
    obtain ⟨hi, rfl⟩ := Option.ite_some_none_eq_some.mp hk
    have hmove := move_mirror h (t := i) (u := (c.length - i : Nat)) (by omega)
    exact .settles (c.seek_settles i) (hmove ▸ c.mirror.seek_settles _) fun _ => Call.recount_done
  | advance o =>
    obtain rfl := Option.some.inj hk
    obtain ⟨x, hx, hsettles⟩ := advance_backward_settles h o
    have hperform : Call.perform (Backward.mk c) (.advance o) =
        ((.of (fun _ => .done) x.1, ⟨x.2⟩) : Answer w × _) := Call.act_of hx
    have hopposite : c.position - o.toInt + c.mirror.target o = c.length := by
      have hpos := h.position_le
      unfold target
      omega
    have hmove := move_mirror h (t := c.position - o.toInt) (u := c.mirror.target o) hopposite
    rw [hperform]
    exact .settles hsettles (hmove ▸ c.mirror.advance_settles o) fun _ => Call.recount_done
  | toEnd =>
    obtain rfl := Option.some.inj hk
    have hmove := move_mirror h (t := 0) (u := c.mirror.length) (by rw [length_mirror, Int.zero_add])
    exact .settles (c.seek_settles 0) (hmove ▸ c.mirror.seek_settles _) fun _ => Call.recount_done
  | atEnd =>
    obtain rfl := Option.some.inj hk
    exact .flag (atEnd_mirror h)
  | atEndBy o =>
    obtain rfl := Option.some.inj hk
    exact .flag (atEndBy_mirror h o)
  | unitAt i =>
    obtain ⟨hi, rfl⟩ := Option.ite_some_none_eq_some.mp hk
    exact .readUnit (unitAt_mirror hi)
  | units s e =>
    obtain ⟨⟨hs, he⟩, rfl⟩ := Option.ite_some_none_eq_some.mp hk
    exact .read (units_mirror hs he) fun _ => rfl
  | text s e =>
    obtain ⟨⟨hs, he⟩, rfl⟩ := Option.ite_some_none_eq_some.mp hk
    refine .read (f := fun us => decodeText us.reverse) ?_ fun _ => rfl
    refine (toOption_map decodeText _).trans ?_
    rw [units_mirror hs he, Option.map_map]
    rfl
  | setMark =>
    obtain rfl := Option.some.inj hk
    exact ⟨rfl, rfl⟩
  | mark =>
    obtain rfl := Option.some.inj hk
    exact .number (congrArg Answer.number (Nat.sub_sub_self h.mark_le))
  | moved =>
    obtain rfl := Option.some.inj hk
    exact ⟨rfl, rfl⟩
  | length =>
    obtain rfl := Option.some.inj hk
    exact .number (congrArg Answer.number length_mirror)
  | isEmpty =>
    obtain rfl := Option.some.inj hk
    exact .flag (congrArg (· == 0) length_mirror.symm)

end Steps

section Outside

theorem read_refused {C α : Type} {c : C} (answer : α → Answer w) {r : Except Fault α}
    (h : r.toOption = none) : ∃ f, Call.read c answer r = (.fault f, c) := by
  cases r with
  | error f => exact ⟨f, rfl⟩
  | ok a => cases h

theorem toOption_units_outside {s e : Nat} (h : ¬(s ≤ c.length ∧ e ≤ c.length)) :
    (c.units e s).toOption = none := by
  rw [toOption_units, if_neg (by omega)]

theorem perform_outside {k : Call} (hk : k.mirror c.length = none) :
    ∃ f, k.perform (Backward.mk c) = ((.fault f, Backward.mk c) : Answer w × _) := by
  have hout : ∀ {P : Prop} [Decidable P] {k : Call},
      (if P then some k else none) = none → ¬P := by
    intro P _ k hnone hp
    rw [if_pos hp] at hnone
    cases hnone
  cases k with
  | seek i =>
    have hseek : (Reader.seek i).on (Backward.mk c) = (.error (.position i c.length), ⟨c⟩) :=
      congrArg (fun r => (r.1, Backward.mk r.2)) (seek_of_lt (Nat.lt_of_not_le (hout hk)))
    exact ⟨_, Call.act_of hseek⟩
  | unitAt i =>
    have hunit : (c.unitAt i).toOption = none := by
      have hi := hout hk
      rw [toOption_unitAt, unit?_eq_none (by omega)]
    exact read_refused _ hunit
  | units s e => exact read_refused _ (toOption_units_outside (hout hk))
  | text s e =>
    have htext : ((c.units e s).map decodeText).toOption = none := by
      rw [toOption_map, toOption_units_outside (hout hk)]
      rfl
    exact read_refused _ htext
  | _ => cases hk

end Outside

def reflected (n : Nat) (k : Call) (y : Answer w × BufferReader w) :
    Option (Answer w) × Nat × Nat × Bool :=
  ((k.recount n y.1).blurred, n - y.2.position, n - y.2.mark, y.2.moved)

/-- What is seen of a run, told from the images of its calls on the reversed buffer. A call without an
image is refused and leaves the reader. -/
def reflect (c : BufferReader w) : List Call → List (Option (Answer w) × Nat × Nat × Bool)
  | [] => []
  | k :: ks =>
    match k.mirror c.length with
    | some k' => reflected c.length k (k'.perform c) :: reflect (k'.perform c).2 ks
    | none => (none, c.length - c.position, c.length - c.mark, c.moved) :: reflect c ks

theorem Mirrors.seen_eq {n : Nat} {k : Call} {x : Answer w × Backward (BufferReader w)}
    {y : Answer w × BufferReader w} (hm : Mirrors n k x y) (h : x.2.inner.Inside)
    (hn : x.2.inner.length = n) : seen x = reflected n k y := by
  obtain ⟨hanswer, hreader⟩ := hm
  have hposition : n - (n - x.2.inner.position) = x.2.inner.position :=
    Nat.sub_sub_self (hn ▸ h.position_le)
  have hmark : n - (n - x.2.inner.mark) = x.2.inner.mark := Nat.sub_sub_self (hn ▸ h.mark_le)
  unfold seen reflected
  rw [hanswer, ← hreader]
  unfold mirror
  rw [hn, hposition, hmark]
  rfl

/-- A run on the reader turned around shows what the images of the calls show on the reversed buffer. -/
theorem observe_backward (h : c.Inside) (ks : List Call) :
    observe (Backward.mk c) ks = c.mirror.reflect ks := by
  induction ks generalizing c with
  | nil => rfl
  | cons k ks ih =>
    unfold observe reflect
    rw [length_mirror]
    cases hk : k.mirror c.length with
    | some k' =>
      have hm := perform_mirror h hk
      have hl := perform_backward_leaves c k
      simp only
      rw [hm.seen_eq (hl.inside h) hl.length_eq, ← hm.reader_eq]
      exact congrArg _ (ih (hl.inside h))
    | none =>
      obtain ⟨f, hf⟩ := perform_outside hk
      have hposition : c.length - c.mirror.position = c.position := Nat.sub_sub_self h.position_le
      have hmark : c.length - c.mirror.mark = c.mark := Nat.sub_sub_self h.mark_le
      simp only
      rw [hf, hposition, hmark, ← ih h]
      rfl

/-- Backward from the second of three units: a read, a read past the start, and indices from the end. -/
theorem observe_backward_reading :
    observe (Backward.mk (⟨#[97, 98, 99], 1, 0, false⟩ : BufferReader .byte))
        [.next, .next, .seek 3, .setMark, .units 3 1, .seek 4, .advance Int64.minValue, .mark] =
      [(some (.unit 97), 0, 0, true), (none, 0, 0, true), (some .done, 3, 0, true),
        (some .done, 3, 3, false), (some (.units [98, 99]), 3, 3, false), (none, 3, 3, false),
        (none, 3, 3, false), (some (.number 3), 3, 3, false)] :=
  (observe_backward ⟨by decide, by decide, by decide⟩ _).trans (by decide +kernel)

end BufferReader

end LexBase
