import LexBase.Proofs.Scan.Range

/-!
# Calls computed in machine words

The calls once more, with each sum and difference formed in a word of the machine. Positions and offsets
have 64 bits, and the questions about the end of the scan are asked with 128. A result that its word cannot
hold is lost, unless the operation is a checked one; then the call is refused. In a buffer of fewer than
2 ^ 63 units no result is lost, and each call comes out as it does with integers.
-/

namespace LexBase

set_option autoImplicit false

variable {w : Width}

inductive Word where
  /-- 64 bits without a sign. -/
  | index
  /-- 64 bits with a sign. -/
  | offset
  /-- 128 bits with a sign. -/
  | double

namespace Word

def Holds : Word → Int → Prop
  | index, n => 0 ≤ n ∧ n < (Nat.pow 2 64 : Nat)
  | offset, n => -(Nat.pow 2 63 : Nat) ≤ n ∧ n < (Nat.pow 2 63 : Nat)
  | double, n => -(Nat.pow 2 127 : Nat) ≤ n ∧ n < (Nat.pow 2 127 : Nat)

instance (k : Word) (n : Int) : Decidable (k.Holds n) :=
  match k with
  | index => inferInstanceAs (Decidable (_ ∧ _))
  | offset => inferInstanceAs (Decidable (_ ∧ _))
  | double => inferInstanceAs (Decidable (_ ∧ _))

def hold (k : Word) (n : Int) : Option Int := if k.Holds n then some n else none

variable {k : Word} {n : Int}

theorem hold_of_holds (h : k.Holds n) : k.hold n = some n := if_pos h

theorem hold_of_not (h : ¬k.Holds n) : k.hold n = none := if_neg h

theorem hold_offset (o : Int64) : offset.hold o.toInt = some o.toInt := by
  have hhalf : Nat.pow 2 63 = 9223372036854775808 := rfl
  exact hold_of_holds ⟨o.le_toInt, hhalf ▸ o.toInt_lt⟩

end Word

namespace BufferReader

/-- The sum of position and offset is a checked one. -/
def wordUnit (c : BufferReader w) (o : Int) : Except Fault (CodeUnit w) :=
  match (Word.index.hold (c.position + o)).bind fun i => c.buffer[i.toNat]? with
  | some u => .ok u
  | none => .error (.read c.position (.ofInt o) c.length)

def wordAdvance (c : BufferReader w) (o : Int) : Action (BufferReader w) Unit :=
  match Word.index.hold (c.position + o) with
  | some i => seek i.toNat
  | none => throw (.beforeStart c.position (.ofInt o))

/-- A read near the position, then a step to an index computed from it. -/
def wordStep (c : BufferReader w) (o i : Int) : Option (Action (BufferReader w) (CodeUnit w)) :=
  match c.wordUnit o with
  | .error f => some (throw f)
  | .ok u => (Word.index.hold i).map fun i => do
    seek i.toNat
    return u

/-- The outcome of a call, or none if a result is lost on the way. The calls of the last line do no
arithmetic. -/
def compute (c : BufferReader w) : Direction → Call → Option (Answer w × BufferReader w)
  | .forward, .next | .backward, .back =>
    (c.wordStep 0 (c.position + 1)).map fun a => Call.act .unit a c
  | .forward, .back | .backward, .next =>
    (c.wordStep (-1) (c.position - 1)).map fun a => Call.act .unit a c
  | .forward, .peek | .backward, .peekBack => some (Call.read c .unit (c.wordUnit 0))
  | .forward, .peekBy o | .backward, .peekBackBy o =>
    some (Call.read c .unit (c.wordUnit o.toInt))
  | .forward, .peekBack | .backward, .peek =>
    (Word.offset.hold (-1 - 0)).map fun o => Call.read c .unit (c.wordUnit o)
  | .forward, .peekBackBy o | .backward, .peekBy o =>
    (Word.offset.hold (-1 - o.toInt)).map fun o => Call.read c .unit (c.wordUnit o)
  | .forward, .advance o => some (Call.act (fun _ => .done) (c.wordAdvance o.toInt) c)
  | .backward, .advance o =>
    match Word.offset.hold (-o.toInt) with
    | some o => some (Call.act (fun _ => .done) (c.wordAdvance o) c)
    | none => some (.fault (.outside c.position o), c)
  | .forward, .atEnd =>
    (Word.double.hold (c.position + 0)).map fun t => (.flag ((c.length : Int) ≤ t), c)
  | .forward, .atEndBy o =>
    (Word.double.hold (c.position + o.toInt)).map fun t => (.flag ((c.length : Int) ≤ t), c)
  | .backward, .atEndBy o =>
    (Word.double.hold (c.position - o.toInt)).map fun t => (.flag (t ≤ 0), c)
  | d, k => some (d.perform c k)

variable {c : BufferReader w}

theorem Inside.holds_index (h : c.Inside) {o : Int64} {i : Int} (hi : 0 ≤ i)
    (hle : i ≤ c.position + o.toInt) : Word.index.Holds i := by
  have hpos := h.position_le
  have hlen := h.length_lt
  have hoff := o.toInt_lt
  have hpow : Nat.pow 2 64 = 18446744073709551616 := rfl
  have hhalf : Nat.pow 2 63 = 9223372036854775808 := rfl
  exact ⟨hi, by omega⟩

theorem hold_target_of_neg {o : Int64} (ho : ¬0 ≤ c.target o) : Word.index.hold (c.target o) = none :=
  Word.hold_of_not fun h => ho h.1

theorem wordUnit_eq (h : c.Inside) (o : Int64) : c.wordUnit o.toInt = c.unitBy o := by
  have hsum : (c.position : Int) + o.toInt = c.target o := rfl
  unfold wordUnit unitBy
  rw [hsum, Int64.ofInt_toInt]
  by_cases ho : 0 ≤ c.target o
  · rw [Word.hold_of_holds (h.holds_index ho (Int.le_refl _)), if_pos ho]
    rfl
  · rw [hold_target_of_neg ho, if_neg ho]
    rfl

theorem wordAdvance_eq (h : c.Inside) (o : Int64) :
    (c.wordAdvance o.toInt).on c = (advance o).on c := by
  have hsum : (c.position : Int) + o.toInt = c.target o := rfl
  unfold wordAdvance advance
  rw [hsum, Int64.ofInt_toInt, Action.on_bind, Action.on_get]
  by_cases ho : 0 ≤ c.target o
  · rw [Word.hold_of_holds (h.holds_index ho (Int.le_refl _))]
    simp only [if_pos ho]
  · rw [hold_target_of_neg ho]
    simp only [if_neg ho]

/-- The index of a step is only formed after the read has succeeded. -/
theorem wordStep_eq (h : c.Inside) {o : Int64} {i : Int}
    (hi : ∀ u, c.unitBy o = .ok u → Word.index.Holds i) :
    ((c.wordStep o.toInt i).map fun a => Call.act .unit a c) = some (Call.act .unit (do
      let u ← ofExcept (c.unitBy o)
      seek i.toNat
      return u) c) := by
  unfold wordStep
  rw [wordUnit_eq h]
  cases hu : c.unitBy o with
  | error f => rfl
  | ok u =>
    simp only [Word.hold_of_holds (hi u hu), Option.map_some]
    rfl

theorem target_of_ok {o : Int64} {u : CodeUnit w} (h : c.unitBy o = .ok u) : 0 ≤ c.target o := by
  have hread := c.toOption_unitBy o
  rw [h] at hread
  apply Int.not_lt.mp
  intro hneg
  rw [unit?_eq_none (.inl hneg)] at hread
  cases hread

theorem wordNext_eq (h : c.Inside) :
    ((c.wordStep 0 (c.position + 1)).map fun a => Call.act .unit a c) = some (Call.act .unit next c) :=
  wordStep_eq h (o := 0) fun _ _ => h.holds_index (o := 1) (by omega) (Int.le_refl _)

theorem wordBack_eq (h : c.Inside) :
    ((c.wordStep (-1) (c.position - 1)).map fun a => Call.act .unit a c) =
      some (Call.act .unit back c) := by
  refine (wordStep_eq h (o := -1) (i := c.position - 1) ?_).trans ?_
  · intro u hu
    exact h.holds_index (o := -1) (target_of_ok hu) (Int.le_refl _)
  · have hindex : ((c.position : Int) - 1).toNat = c.position - 1 := by omega
    rw [hindex]
    rfl

theorem hold_opposite (o : Int64) : Word.offset.hold (-1 - o.toInt) = some (-1 - o).toInt := by
  rw [← toInt_neg_one_sub]
  exact Word.hold_offset _

theorem hold_neg {o : Int64} (h : o ≠ Int64.minValue) :
    Word.offset.hold (-o.toInt) = some (-o).toInt := by
  rw [← toInt_neg_of_ne h]
  exact Word.hold_offset _

theorem hold_neg_least : Word.offset.hold (-Int64.minValue.toInt) = none :=
  Word.hold_of_not fun h => absurd h.2 (by decide)

theorem hold_double (h : c.Inside) (o : Int64) :
    Word.double.hold (c.position + o.toInt) = some (c.position + o.toInt) ∧
      Word.double.hold (c.position - o.toInt) = some (c.position - o.toInt) := by
  have hpos := h.position_le
  have hlen := h.length_lt
  have hlow := o.le_toInt
  have hhigh := o.toInt_lt
  have hhalf : Nat.pow 2 63 = 9223372036854775808 := rfl
  have hwide : Nat.pow 2 127 = 170141183460469231731687303715884105728 := rfl
  exact ⟨Word.hold_of_holds ⟨by omega, by omega⟩, Word.hold_of_holds ⟨by omega, by omega⟩⟩

theorem wordPeekBack_eq (h : c.Inside) (o : Int64) :
    ((Word.offset.hold (-1 - o.toInt)).map fun o => Call.read c .unit (c.wordUnit o)) =
      some (Call.read c .unit (c.unitBy (-1 - o))) := by
  rw [hold_opposite, Option.map_some, wordUnit_eq h]

theorem wordAtEnd_eq (h : c.Inside) (o : Int64) :
    ((Word.double.hold (c.position + o.toInt)).map fun t =>
        ((.flag ((c.length : Int) ≤ t), c) : Answer w × BufferReader w)) =
      some (.flag ((c.length : Int) ≤ c.target o), c) := by
  rw [(hold_double h o).1]
  rfl

theorem act_congr {α : Type} {a b : Action (BufferReader w) α} (answer : α → Answer w)
    (h : a.on c = b.on c) : Call.act answer a c = Call.act answer b c := by
  unfold Call.act
  rw [h]

theorem compute_forward (h : c.Inside) (k : Call) :
    c.compute .forward k = some (Direction.forward.perform c k) := by
  cases k with
  | next =>
    change ((c.wordStep 0 (c.position + 1)).map fun a => Call.act .unit a c) = _
    rw [wordNext_eq h]
    rfl
  | back =>
    change ((c.wordStep (-1) (c.position - 1)).map fun a => Call.act .unit a c) = _
    rw [wordBack_eq h]
    rfl
  | peek => exact congrArg (fun r => some (Call.read c .unit r)) (wordUnit_eq h 0)
  | peekBy o => exact congrArg (fun r => some (Call.read c .unit r)) (wordUnit_eq h o)
  | peekBack =>
    unfold Direction.perform Call.perform
    exact wordPeekBack_eq h 0
  | peekBackBy o =>
    unfold Direction.perform Call.perform
    exact wordPeekBack_eq h o
  | advance o =>
    exact congrArg some (act_congr (fun _ => .done) (wordAdvance_eq h o))
  | atEnd => exact wordAtEnd_eq h 0
  | atEndBy o => exact wordAtEnd_eq h o
  | _ => rfl

theorem compute_of_opposite (h : c.Inside) {k k' : Call} (hk : k.opposite = some k')
    (heq : c.compute .backward k = c.compute .forward k') :
    c.compute .backward k = some (Direction.backward.perform c k) := by
  rw [heq, compute_forward h, perform_opposite hk]

theorem compute_backward (h : c.Inside) (k : Call) :
    c.compute .backward k = some (Direction.backward.perform c k) := by
  cases k with
  | next => exact compute_of_opposite h rfl rfl
  | back => exact compute_of_opposite h rfl rfl
  | peek => exact compute_of_opposite h rfl rfl
  | peekBy o => exact compute_of_opposite h rfl rfl
  | peekBack => exact compute_of_opposite h rfl rfl
  | peekBackBy o => exact compute_of_opposite h rfl rfl
  | advance o =>
    by_cases ho : o = Int64.minValue
    · subst ho
      unfold compute
      simp only [hold_neg_least]
      rfl
    · refine compute_of_opposite h (if_neg ho) ?_
      unfold compute
      simp only [hold_neg ho]
  | atEndBy o =>
    have heq : c.compute .backward (.atEndBy o) =
        (Word.double.hold (c.position - o.toInt)).map fun t => (.flag (t ≤ 0), c) := rfl
    rw [heq, (hold_double h o).2]
    rfl
  | _ => rfl

/-- Every call of each view checks its place exactly, and no word loses a result on the way. -/
structure Exact (c : BufferReader w) : Prop where
  position_le : c.position ≤ c.length
  mark_le : c.mark ≤ c.length
  meets : ∀ (v : View) k, c.Meets (c.reply v.direction k) (v.perform c k)
  computes : ∀ (v : View) k, c.compute v.direction k = some (v.perform c k)

theorem Inside.is_exact (h : c.Inside) : c.Exact := by
  refine ⟨h.position_le, h.mark_le, perform_meets h, ?_⟩
  intro v k
  rw [v.perform_eq]
  cases v.direction with
  | forward => exact compute_forward h k
  | backward => exact compute_backward h k

/-- Whatever has been called through any view, refused calls among it, every call is exact. -/
theorem after_exact {buffer : Array (CodeUnit w)} (h : buffer.size < Nat.pow 2 63)
    (hs : List (View × Call)) : ((ofBuffer buffer).after hs).Exact :=
  ((inside_ofBuffer h).after hs).is_exact

/-- At the end of two units, after moves by the extreme offsets have been refused. -/
def afterExtremes : BufferReader .byte :=
  (ofBuffer #[97, 98]).after
    [(⟨.forward, false⟩, .next), (⟨.backward, true⟩, .advance Int64.minValue),
      (⟨.forward, true⟩, .setMark), (⟨.backward, false⟩, .back),
      (⟨.forward, false⟩, .advance Int64.maxValue), (⟨.backward, true⟩, .advance Int64.maxValue)]

theorem afterExtremes_exact : (#[97, 98] : Array (CodeUnit .byte)).size < Nat.pow 2 63 ∧
    afterExtremes.Exact ∧
    (afterExtremes.position, afterExtremes.mark, afterExtremes.moved) = (2, 1, true) ∧
    (View.perform ⟨.forward, false⟩ afterExtremes (.peekBackBy 1)).1 = .unit 97 ∧
    ∃ f, View.perform ⟨.backward, true⟩ afterExtremes (.peekBackBy Int64.minValue) =
      (.fault f, afterExtremes) := by
  have hsize : (#[97, 98] : Array (CodeUnit .byte)).size < Nat.pow 2 63 := by decide
  exact ⟨hsize, after_exact hsize _, by decide, by decide, _, rfl⟩

end BufferReader

end LexBase
