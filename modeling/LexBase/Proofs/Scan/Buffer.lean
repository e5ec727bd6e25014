import LexBase.Scan.Buffer
import LexBase.Scan.Call

/-!
# What a call does to a buffer reader

A call leaves the reader, places it somewhere in the buffer, or marks where it is. So a reader
whose position lies in its buffer stays so. A read or a move succeeds exactly if its target, counted
in the integers, lies in the buffer; if it does not, the call ends before it writes anything.
-/

namespace LexBase

set_option autoImplicit false

namespace Action

variable {C α β : Type}

@[simp] theorem on_bind (a : Action C α) (f : α → Action C β) (c : C) :
    Action.on (a >>= f) c = match a.on c with
      | (.ok x, c) => (f x).on c
      | (.error e, c) => (.error e, c) := by
  unfold on
  rw [ExceptT.run_bind, StateT.run_bind]
  rcases StateT.run (ExceptT.run a) c with ⟨e | x, c⟩ <;> rfl

@[simp] theorem on_pure (x : α) (c : C) : Action.on (pure x) c = (.ok x, c) := rfl

@[simp] theorem on_get (c : C) : Action.on get c = (.ok c, c) := rfl

@[simp] theorem on_modify (f : C → C) (c : C) : Action.on (modify f) c = (.ok (), f c) := rfl

@[simp] theorem on_throw (f : Fault) (c : C) : Action.on (throw f : Action C α) c = (.error f, c) := rfl

@[simp] theorem on_ofExcept (r : Except Fault α) (c : C) :
    Action.on (ofExcept r : Action C α) c = (r, c) := by
  cases r <;> rfl

end Action

variable {w : Width}

theorem Call.act_of {C α : Type} {answer : α → Answer w} {a : Action C α} {c c' : C}
    {outcome : Except Fault α} (h : a.on c = (outcome, c')) :
    act answer a c = (.of answer outcome, c') := by
  unfold act
  rw [h]

namespace BufferReader

variable {c : BufferReader w}

def placed (c : BufferReader w) (i : Nat) : BufferReader w :=
  { c with position := i, moved := c.moved || i != c.position }

def marked (c : BufferReader w) : BufferReader w := { c with mark := c.position, moved := false }

theorem placed_self (c : BufferReader w) : c.placed c.position = c := by
  unfold placed
  rw [bne_self_eq_false, Bool.or_false]

theorem placed_placed {i j : Nat} (hi : i ≠ c.position) (hj : j ≠ c.position) :
    (c.placed i).placed j = c.placed j := by
  unfold placed
  simp only [bne_iff_ne.mpr hi, bne_iff_ne.mpr hj, Bool.or_true, Bool.true_or]

theorem seek_of_le {i : Nat} (h : i ≤ c.length) : (seek i).on c = (.ok (), c.placed i) := by
  simp [seek, h, placed]

theorem seek_of_lt {i : Nat} (h : c.length < i) :
    (seek i).on c = (.error (.position i c.length), c) := by
  simp [seek, Nat.not_le_of_lt h]

/-- The outcome of an action: what is due to it, or a fault and the reader as it was. -/
inductive Settles {α : Type} (c : BufferReader w) :
    Option (α × BufferReader w) → Except Fault α × BufferReader w → Prop where
  | granted (a : α) (c' : BufferReader w) : Settles c (some (a, c')) (.ok a, c')
  | refused (f : Fault) : Settles c none (.error f, c)

theorem Settles.eq_of_due {α : Type} {a : α} {c' : BufferReader w}
    {r : Except Fault α × BufferReader w} (h : c.Settles (some (a, c')) r) : r = (.ok a, c') := by
  cases h
  rfl

section Outcomes

theorem toOption_map {α β : Type} (f : α → β) (r : Except Fault α) :
    (r.map f).toOption = r.toOption.map f := by
  cases r <;> rfl

def unit? (c : BufferReader w) (t : Int) : Option (CodeUnit w) :=
  if 0 ≤ t then c.buffer[t.toNat]? else none

theorem unit?_eq_none {t : Int} (h : t < 0 ∨ c.length ≤ t) : c.unit? t = none := by
  unfold unit?
  split
  · rw [Array.getElem?_eq_none]
    unfold length at h
    omega
  · rfl

theorem toOption_unitBy (o : Int64) : (c.unitBy o).toOption = c.unit? (c.target o) := by
  unfold unitBy unit?
  split
  · cases c.buffer[(c.target o).toNat]? <;> rfl
  · rfl

theorem target_zero : c.target 0 = c.position := by
  unfold target
  rw [Int64.toInt_zero, Int.add_zero]

def moveDue (c : BufferReader w) (t : Int) : Option (Unit × BufferReader w) :=
  if 0 ≤ t ∧ t ≤ c.length then some ((), c.placed t.toNat) else none

def stepDue (c : BufferReader w) (t : Int) (i : Nat) : Option (CodeUnit w × BufferReader w) :=
  (c.unit? t).map fun u => (u, c.placed i)

theorem seek_settles (i : Nat) : c.Settles (c.moveDue i) ((seek i).on c) := by
  unfold moveDue
  rcases Nat.lt_or_ge c.length i with hlt | hle
  · rw [seek_of_lt hlt, if_neg (by omega)]
    exact .refused _
  · rw [seek_of_le hle, if_pos (by omega), Int.toNat_natCast]
    exact .granted _ _

theorem advance_settles (o : Int64) : c.Settles (c.moveDue (c.target o)) ((advance o).on c) := by
  by_cases hzero : 0 ≤ c.target o
  · have hseek := c.seek_settles (c.target o).toNat
    rw [Int.toNat_of_nonneg hzero] at hseek
    simpa [advance, hzero] using hseek
  · have hdue : c.moveDue (c.target o) = none := if_neg fun h => hzero h.1
    rw [hdue]
    simpa [advance, hzero] using Settles.refused (.beforeStart c.position o)

/-- A step moves if there is a unit to step over, and then its target lies in the buffer. -/
theorem step_settles {r : Except Fault (CodeUnit w)} {t : Int} {i : Nat}
    (hr : r.toOption = c.unit? t) (hi : 0 ≤ t → t < c.length → i ≤ c.length) :
    c.Settles (c.stepDue t i) (Action.on (do
      let u ← ofExcept r
      seek i
      return u) c) := by
  unfold stepDue
  cases r with
  | error f =>
    rw [← hr, Action.on_bind, Action.on_ofExcept]
    exact .refused f
  | ok u =>
    by_cases hin : 0 ≤ t ∧ t < c.length
    · rw [← hr, Action.on_bind, Action.on_ofExcept]
      simp only [Action.on_bind, seek_of_le (hi hin.1 hin.2), Action.on_pure]
      exact .granted u (c.placed i)
    · rw [unit?_eq_none (by omega)] at hr
      cases hr

theorem next_settles : c.Settles (c.stepDue c.position (c.position + 1)) (next.on c) := by
  have hr := c.toOption_unitBy 0
  rw [target_zero] at hr
  exact step_settles hr (by omega)

theorem back_settles (h : c.position ≤ c.length) :
    c.Settles (c.stepDue (c.position - 1) (c.position - 1)) (back.on c) :=
  step_settles (c.toOption_unitBy (-1)) (by omega)

theorem toOption_unitAt (i : Nat) : (c.unitAt i).toOption = c.unit? i := by
  unfold unitAt unit?
  rw [if_pos (Int.natCast_nonneg i), Int.toNat_natCast]
  cases c.buffer[i]? <;> rfl

theorem toOption_units (s e : Nat) : (c.units s e).toOption =
    if s ≤ e ∧ e ≤ c.length then some (c.buffer.extract s e).toList else none := by
  unfold units
  split <;> rfl

end Outcomes

inductive Leaves (c : BufferReader w) : BufferReader w → Prop where
  | same : Leaves c c
  | placed {i : Nat} : i ≤ c.length → Leaves c (c.placed i)
  | marked : Leaves c c.marked

theorem leaves_seek (c : BufferReader w) (i : Nat) : c.Leaves ((seek i).on c).2 := by
  rcases Nat.lt_or_ge c.length i with hlt | hle
  · rw [seek_of_lt hlt]
    exact .same
  · rw [seek_of_le hle]
    exact .placed hle

theorem leaves_step (c : BufferReader w) (r : Except Fault (CodeUnit w)) (i : Nat) :
    c.Leaves (Action.on (do
      let u ← ofExcept r
      seek i
      return u) c).2 := by
  rw [Action.on_bind, Action.on_ofExcept]
  cases r with
  | error f => exact .same
  | ok u =>
    have hseek := c.leaves_seek i
    simp only [Action.on_bind]
    split <;> rename_i heq <;> rwa [heq] at hseek

theorem leaves_advance (c : BufferReader w) (o : Int64) : c.Leaves ((advance o).on c).2 := by
  by_cases hzero : 0 ≤ c.target o
  · simpa [advance, hzero] using c.leaves_seek (c.target o).toNat
  · simpa [advance, hzero] using Leaves.same

theorem perform_leaves (c : BufferReader w) (k : Call) : c.Leaves (k.perform c).2 := by
  cases k with
  | next => exact c.leaves_step (c.unitBy 0) _
  | back => exact c.leaves_step (c.unitBy (-1)) _
  | seek i => exact c.leaves_seek i
  | toEnd => exact c.leaves_seek c.length
  | advance o => exact c.leaves_advance o
  | setMark => exact .marked
  | _ => exact .same

theorem Leaves.position_le {c' : BufferReader w} (hl : c.Leaves c') (h : c.position ≤ c.length) :
    c'.position ≤ c'.length := by
  cases hl with
  | same => exact h
  | placed hi => exact hi
  | marked => exact h

theorem position_perform_le (h : c.position ≤ c.length) (k : Call) :
    (k.perform c).2.position ≤ (k.perform c).2.length :=
  (perform_leaves c k).position_le h

theorem Leaves.length_eq {c' : BufferReader w} (hl : c.Leaves c') : c'.length = c.length := by
  cases hl <;> rfl

theorem length_perform (c : BufferReader w) (k : Call) : (k.perform c).2.length = c.length :=
  (perform_leaves c k).length_eq

/-- What holds of every reader that calls lead to from the start of a buffer. -/
structure Inside (c : BufferReader w) : Prop where
  position_le : c.position ≤ c.length
  mark_le : c.mark ≤ c.length
  length_lt : c.length < Nat.pow 2 63

theorem Leaves.inside {c' : BufferReader w} (hl : c.Leaves c') (h : c.Inside) : c'.Inside := by
  cases hl with
  | same => exact h
  | placed hi => exact ⟨hi, h.mark_le, h.length_lt⟩
  | marked => exact ⟨h.position_le, h.position_le, h.length_lt⟩

section Offsets

variable {o : Int64}

theorem toInt_neg_one_sub (o : Int64) : (-1 - o).toInt = -1 - o.toInt := by
  have hlow := o.le_toInt
  have hhigh := o.toInt_lt
  rw [Int64.toInt_sub]
  change (-1 - o.toInt).bmod (2 ^ 64) = _
  exact Int.bmod_eq_of_le_mul_two (by omega) (by omega)

theorem toInt_neg_of_ne (h : o ≠ Int64.minValue) : (-o).toInt = -o.toInt := by
  have hlow := o.le_toInt
  have hhigh := o.toInt_lt
  have hne : o.toInt ≠ Int64.minValue.toInt := fun heq => h (Int64.toInt_inj.mp heq)
  rw [Int64.toInt_minValue] at hne
  rw [Int64.toInt_neg]
  exact Int.bmod_eq_of_le_mul_two (by omega) (by omega)

end Offsets

end BufferReader

end LexBase
