import LexBase.Proofs.Scan.Buffer
import LexBase.Scan.Backward

/-!
# Turning around twice

A reader turned around twice reads in its own direction again, but the end of its scan is still
index 0. So it cannot be told from the reader itself exactly as long as no call asks for the end
of the scan where the two ends differ.
-/

namespace LexBase

set_option autoImplicit false

variable {w : Width}

/-- An answer without the text of its fault. -/
def Answer.blurred : Answer w → Option (Answer w)
  | .fault _ => none
  | a => some a

/-- What is seen after a call: its answer, the position, the mark and whether the reader moved. -/
def seen {C : Type} [Reader C w] (r : Answer w × C) : Option (Answer w) × Nat × Nat × Bool :=
  (r.1.blurred, Reader.position r.2, Reader.mark r.2, Reader.moved r.2)

def observe {C : Type} [Reader C w] (c : C) :
    List Call → List (Option (Answer w) × Nat × Nat × Bool)
  | [] => []
  | k :: ks => seen (k.perform c) :: observe (k.perform c).2 ks

namespace BufferReader

variable {c : BufferReader w}

def twice (c : BufferReader w) : Backward (Backward (BufferReader w)) := ⟨⟨c⟩⟩

/-- Whether index 0 and the end of the buffer give the same answer to the call. -/
def EndsAgree (c : BufferReader w) : Call → Prop
  | .toEnd => c.length = 0
  | .atEnd => c.position = 0 ↔ c.length ≤ c.position
  | .atEndBy o => (c.position : Int) - o.toInt ≤ 0 ↔ (c.length : Int) ≤ c.position + o.toInt
  | _ => True

def Faithful : BufferReader w → List Call → Prop
  | _, [] => True
  | c, k :: ks => c.EndsAgree k ∧ (k.perform c).2.Faithful ks

def through (r : Answer w × BufferReader w) : Answer w × Backward (Backward (BufferReader w)) :=
  (r.1, r.2.twice)

theorem read_twice {α : Type} (answer : α → Answer w) (r : Except Fault α) :
    Call.read c.twice answer r = through (Call.read c answer r) :=
  rfl

theorem neg_ne_minValue {o : Int64} (ho : o ≠ Int64.minValue) : -o ≠ Int64.minValue := by
  intro h
  have hback := congrArg Neg.neg h
  rw [Int64.neg_neg] at hback
  exact ho hback

theorem advance_twice {o : Int64} (ho : o ≠ Int64.minValue) :
    (Reader.advance o).on c.twice = (((advance o).on c).1, ((advance o).on c).2.twice) := by
  have houter : (Reader.advance o).on c.twice =
      (Backward.turned (Reader.advance (-o))).on c.twice := by
    change (Backward.advance o).on c.twice = _
    simp [Backward.advance, ho]
  have hinner : (Reader.advance (-o)).on (Backward.mk c) =
      (Backward.turned (advance o)).on (Backward.mk c) := by
    change (Backward.advance (-o)).on (Backward.mk c) = _
    simp [Backward.advance, neg_ne_minValue ho]
    rfl
  rw [houter]
  exact congrArg (fun r => (r.1, Backward.mk r.2)) hinner

/-- Neither reader can move back by more than the buffer holds. -/
theorem advance_minValue (hpos : c.position ≤ c.length) (hlen : c.length < Nat.pow 2 63) :
    ∃ f g, (Reader.advance Int64.minValue).on c.twice = (.error f, c.twice) ∧
      (Reader.advance Int64.minValue).on c = (.error g, c) := by
  have hmin : Int64.minValue.toInt = -9223372036854775808 := rfl
  have hpow : Nat.pow 2 63 = 9223372036854775808 := rfl
  have hneg : ¬0 ≤ c.target Int64.minValue := by
    unfold target
    omega
  refine ⟨_, .beforeStart c.position Int64.minValue, rfl, ?_⟩
  change (advance Int64.minValue).on c = _
  simp [advance, hneg]

theorem endsAgree_atEnd_iff : c.EndsAgree .atEnd ↔ Reader.atEnd c.twice = Reader.atEnd c := by
  have hinside : Reader.atEnd c.twice = true ↔ c.position = 0 := beq_iff_eq
  have houtside : Reader.atEnd c = true ↔ c.length ≤ c.position := by
    change decide ((c.length : Int) ≤ c.target 0) = true ↔ _
    unfold target
    rw [decide_eq_true_iff, Int64.toInt_zero, Int.add_zero, Int.ofNat_le]
  rw [Bool.eq_iff_iff, hinside, houtside]
  rfl

theorem endsAgree_atEndBy_iff (o : Int64) :
    c.EndsAgree (.atEndBy o) ↔ Reader.atEndBy c.twice o = Reader.atEndBy c o := by
  have hinside : Reader.atEndBy c.twice o = true ↔ (c.position : Int) - o.toInt ≤ 0 :=
    decide_eq_true_iff
  have houtside : Reader.atEndBy c o = true ↔ (c.length : Int) ≤ c.position + o.toInt :=
    decide_eq_true_iff
  rw [Bool.eq_iff_iff, hinside, houtside]
  rfl

theorem perform_toEnd : Call.perform c .toEnd = ((.done, c.placed c.length) : Answer w × _) :=
  congrArg (fun r => (Answer.of (fun _ => .done) r.1, r.2)) (c.seek_of_le (Nat.le_refl _))

theorem perform_toEnd_twice :
    Call.perform c.twice .toEnd = ((.done, (c.placed 0).twice) : Answer w × _) :=
  congrArg (fun r => (Answer.of (fun _ => .done) r.1, r.2.twice)) (c.seek_of_le (Nat.zero_le _))

theorem perform_twice_eq {k : Call} (h : c.EndsAgree k) (hk : k ≠ .advance Int64.minValue)
    (hend : k ≠ .toEnd) : k.perform c.twice = through (k.perform c) := by
  cases k with
  | advance o =>
    have ho : o ≠ Int64.minValue := fun heq => hk (heq ▸ rfl)
    exact Call.act_of (advance_twice ho)
  | toEnd => exact absurd rfl hend
  | atEnd => exact congrArg (fun b => (Answer.flag b, c.twice)) (endsAgree_atEnd_iff.mp h)
  | atEndBy o => exact congrArg (fun b => (Answer.flag b, c.twice)) ((endsAgree_atEndBy_iff o).mp h)
  | peekBackBy o =>
    unfold Call.perform
    exact read_twice Answer.unit _
  | _ => rfl

theorem perform_twice (hpos : c.position ≤ c.length) (hlen : c.length < Nat.pow 2 63) {k : Call}
    (h : c.EndsAgree k) :
    seen (k.perform c.twice) = seen (k.perform c) ∧
      (k.perform c.twice).2 = (k.perform c).2.twice := by
  by_cases hmin : k = .advance Int64.minValue
  · subst hmin
    obtain ⟨f, g, hf, hg⟩ := advance_minValue hpos hlen
    have htwice : Call.perform c.twice (.advance Int64.minValue) = (.fault f, c.twice) :=
      Call.act_of hf
    have honce : Call.perform c (.advance Int64.minValue) = (.fault g, c) := Call.act_of hg
    rw [htwice, honce]
    exact ⟨rfl, rfl⟩
  by_cases hend : k = .toEnd
  · subst hend
    have hempty : c.length = 0 := h
    rw [perform_toEnd, perform_toEnd_twice, hempty]
    exact ⟨rfl, rfl⟩
  · rw [perform_twice_eq h hmin hend]
    exact ⟨rfl, rfl⟩

theorem endsAgree_of_seen {k : Call} (h : seen (k.perform c.twice) = seen (k.perform c)) :
    c.EndsAgree k := by
  cases k with
  | toEnd =>
    rw [perform_toEnd, perform_toEnd_twice] at h
    exact (congrArg (·.2.1) h).symm
  | atEnd =>
    have hflag := Option.some.inj (congrArg Prod.fst h)
    exact endsAgree_atEnd_iff.mpr (Answer.flag.inj hflag)
  | atEndBy o =>
    have hflag := Option.some.inj (congrArg Prod.fst h)
    exact (endsAgree_atEndBy_iff o).mpr (Answer.flag.inj hflag)
  | _ => exact trivial

/-- Call by call the two readers cannot be told apart exactly if the ends agree wherever they are
asked for. -/
theorem observe_twice_iff (hpos : c.position ≤ c.length) (hlen : c.length < Nat.pow 2 63)
    (ks : List Call) : observe c.twice ks = observe c ks ↔ c.Faithful ks := by
  induction ks generalizing c with
  | nil => exact ⟨fun _ => trivial, fun _ => rfl⟩
  | cons k ks ih =>
    have hnext : (k.perform c).2.length < Nat.pow 2 63 := by
      rw [length_perform]
      exact hlen
    have htail := ih (position_perform_le hpos k) hnext
    constructor
    · intro h
      obtain ⟨hhead, hrest⟩ := List.cons.inj h
      have hagree := endsAgree_of_seen hhead
      rw [(perform_twice hpos hlen hagree).2] at hrest
      exact ⟨hagree, htail.mp hrest⟩
    · intro h
      obtain ⟨hhead, hstate⟩ := perform_twice hpos hlen h.1
      unfold observe
      rw [hhead, hstate, htail.mpr h.2]

theorem observe_twice_reading :
    observe (ofBuffer #[97, 98] : BufferReader .byte).twice
        [.next, .peek, .peekBack, .advance 1, .next, .setMark, .back] =
      observe (ofBuffer #[97, 98] : BufferReader .byte)
        [.next, .peek, .peekBack, .advance 1, .next, .setMark, .back] :=
  (observe_twice_iff (Nat.zero_le _) (Nat.lt_of_sub_eq_succ rfl) _).mpr
    ⟨trivial, trivial, trivial, trivial, trivial, trivial, trivial, trivial⟩

/-- The end of the scan is at the wrong side of a buffer that is not empty. -/
theorem observe_twice_toEnd_ne :
    observe (ofBuffer #[97] : BufferReader .byte).twice [.toEnd] ≠
      observe (ofBuffer #[97] : BufferReader .byte) [.toEnd] := by
  decide

end BufferReader

end LexBase
