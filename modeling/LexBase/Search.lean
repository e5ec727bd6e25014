/-!
# Bounded search

Probing a table, moving a walker to the next entry and finding a vacant slot are all searches through an
interval of natural numbers. `firstSome` returns the first answer of such a search, `anyOf` only whether
there is one.
-/

namespace LexBase

set_option autoImplicit false

variable {α : Type}

/-- The answer at the least index of `[start, start + count)` that has one. -/
@[specialize] def firstSome (f : Nat → Option α) (start : Nat) : Nat → Option α
  | 0 => none
  | count + 1 =>
    match f start with
    | some a => some a
    | none => firstSome f (start + 1) count

/-- Whether some index of `[start, start + count)` passes the test. -/
@[specialize] def anyOf (p : Nat → Bool) (start : Nat) : Nat → Bool
  | 0 => false
  | count + 1 => p start || anyOf p (start + 1) count

theorem firstSome_eq_some_iff {f : Nat → Option α} {start count : Nat} {a : α} :
    firstSome f start count = some a ↔
      ∃ i, i < count ∧ f (start + i) = some a ∧ ∀ j, j < i → f (start + j) = none := by
  induction count generalizing start with
  | zero => simp [firstSome]
  | succ count ih =>
    cases h : f start with
    | some b =>
      simp only [firstSome, h, Option.some.injEq]
      constructor
      · rintro rfl
        exact ⟨0, by omega, by simpa using h, by omega⟩
      · rintro ⟨i, _, hi, hj⟩
        cases i with
        | zero => simpa [h] using hi
        | succ i => simpa [h] using hj 0 (by omega)
    | none =>
      simp only [firstSome, h, ih]
      constructor
      · rintro ⟨i, hi, hf, hj⟩
        refine ⟨i + 1, by omega, by rw [← hf]; congr 1; omega, ?_⟩
        intro j hlt
        cases j with
        | zero => simpa using h
        | succ j => rw [← hj j (by omega)]; congr 1; omega
      · rintro ⟨i, hi, hf, hj⟩
        cases i with
        | zero => simp [h] at hf
        | succ i =>
          refine ⟨i, by omega, by rw [← hf]; congr 1; omega, ?_⟩
          intro j hlt
          rw [← hj (j + 1) (by omega)]; congr 1; omega

theorem firstSome_eq_none_iff {f : Nat → Option α} {start count : Nat} :
    firstSome f start count = none ↔ ∀ i, i < count → f (start + i) = none := by
  induction count generalizing start with
  | zero => simp [firstSome]
  | succ count ih =>
    cases h : f start with
    | some b =>
      simp only [firstSome, h, reduceCtorEq, false_iff]
      intro hall
      simpa [h] using hall 0 (by omega)
    | none =>
      simp only [firstSome, h, ih]
      constructor
      · intro hall i hi
        cases i with
        | zero => simpa using h
        | succ i => rw [← hall i (by omega)]; congr 1; omega
      · intro hall i hi
        rw [← hall (i + 1) (by omega)]; congr 1; omega

end LexBase
