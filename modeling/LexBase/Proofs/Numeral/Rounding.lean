import Mathlib.Algebra.Order.Field.Power
import Mathlib.Data.Rat.Floor
import Mathlib.Tactic.Linarith
import Mathlib.Tactic.Positivity
import LexBase.Numeral.Binary
import LexBase.Numeral.Quotient

/-!
# Correct rounding

A number of a binary format is the rounded form of a rational one if no other number of the format is
nearer and, where another is equally near, its own last bit is zero. From `2 ^ k` to twice of it the numbers
of double precision lie `gap k` apart, and below it nothing is nearer than `2 ^ k` itself. So rounding comes
down to the nearest integer number of gaps, and `ceilRounded 53` rounds up the correctly rounded quotient.
-/

namespace LexBase

set_option autoImplicit false

theorem cast_pow (n : Nat) : ((Nat.pow 2 n : ℕ) : ℚ) = 2 ^ n := Nat.cast_pow 2 n

def BinaryValue.rational? : BinaryValue → Option ℚ
  | .finite negative m q => some ((if negative then -1 else 1) * (m * 2 ^ q))
  | _ => none

namespace Binary

variable {f : BinaryFormat}

def rational? (x : Binary f) : Option ℚ := x.value.rational?

/-- The pattern `x`, which stands for `r`, is the rounded form of `v`. -/
structure Rounds (v : ℚ) (x : Binary f) (r : ℚ) : Prop where
  rational?_eq : x.rational? = some r
  nearest : ∀ (y : Binary f) s, y.rational? = some s → |v - r| ≤ |v - s|
  even : ∀ (y : Binary f) s, y.rational? = some s → |v - s| = |v - r| → s ≠ r → x.fraction % 2 = 0

namespace Rounds

variable {v r s : ℚ} {x y : Binary f}

theorem le_of_le (h : Rounds v x r) (hy : y.rational? = some s) (hle : s ≤ v) : s ≤ r := by
  by_contra hlt
  have hnear := h.nearest y s hy
  rw [abs_of_nonneg (by linarith), abs_of_nonneg (by linarith)] at hnear
  linarith

theorem ge_of_ge (h : Rounds v x r) (hy : y.rational? = some s) (hge : v ≤ s) : r ≤ s := by
  by_contra hlt
  have hnear := h.nearest y s hy
  rw [abs_of_nonpos (by linarith), abs_of_nonpos (by linarith)] at hnear
  linarith

/-- A number of the format is rounded to itself, and to nothing else. -/
theorem of_exact (hx : x.rational? = some v) : Rounds v x v where
  rational?_eq := hx
  nearest y s _ := by
    rw [sub_self, abs_zero]
    exact abs_nonneg _
  even y s _ htie hne := by
    rw [sub_self, abs_zero, abs_eq_zero, sub_eq_zero] at htie
    exact absurd htie.symm hne

theorem eq_of_exact (h : Rounds v x r) (hy : y.rational? = some v) : r = v :=
  le_antisymm (h.ge_of_ge hy le_rfl) (h.le_of_le hy le_rfl)

end Rounds

theorem significand_lt {x : Binary f} {negative : Bool} {m : Nat} {q : Int}
    (h : x.value = .finite negative m q) : m < Nat.pow 2 (f.fractionBits + 1) := by
  have hfraction : x.fraction < Nat.pow 2 f.fractionBits := Nat.mod_lt _ (Nat.two_pow_pos _)
  have hpow : Nat.pow 2 (f.fractionBits + 1) = Nat.pow 2 f.fractionBits * 2 := rfl
  unfold value at h
  split at h
  · split at h <;> cases h
  split at h
  · cases h
    omega
  · cases h
    omega

theorem leastExponent_le {x : Binary f} {negative : Bool} {m : Nat} {q : Int}
    (h : x.value = .finite negative m q) : f.leastExponent ≤ q := by
  unfold value at h
  split at h
  · split at h <;> cases h
  split at h
  · cases h
    exact Int.le_refl _
  · cases h
    omega

theorem exists_of_pos {x : Binary f} {s : ℚ} (h : x.rational? = some s) (hpos : 0 < s) :
    ∃ m q, x.value = .finite false m q ∧ m < Nat.pow 2 (f.fractionBits + 1) ∧ s = m * 2 ^ q := by
  unfold rational? BinaryValue.rational? at h
  split at h
  · next negative m q hvalue =>
    obtain rfl := Option.some.inj h
    cases negative with
    | true =>
      have hnonneg : (0 : ℚ) ≤ m * 2 ^ q := by positivity
      rw [if_pos rfl] at hpos
      linarith
    | false => exact ⟨m, q, hvalue, significand_lt hvalue, one_mul _⟩
  · cases h

/-- The pattern of a number that is not negative, by its fields. -/
def ofFields (f : BinaryFormat) (field fraction : Nat) : Binary f :=
  ⟨BitVec.ofNat f.bits (field * Nat.pow 2 f.fractionBits + fraction)⟩

section Fields

variable {field fraction : Nat} (hfield : field < Nat.pow 2 f.exponentBits)
  (hfraction : fraction < Nat.pow 2 f.fractionBits)

include hfield hfraction

theorem fields_lt : 2 * (field * Nat.pow 2 f.fractionBits + fraction) < Nat.pow 2 f.bits := by
  have hpow : Nat.pow 2 f.bits = 2 * (Nat.pow 2 f.exponentBits * Nat.pow 2 f.fractionBits) := by
    change 2 ^ (f.exponentBits + f.fractionBits + 1) = 2 * (2 ^ _ * 2 ^ _)
    rw [pow_succ, pow_add, mul_comm]
  have hlt : field * Nat.pow 2 f.fractionBits + fraction <
      Nat.pow 2 f.exponentBits * Nat.pow 2 f.fractionBits := by
    calc field * Nat.pow 2 f.fractionBits + fraction
        < (field + 1) * Nat.pow 2 f.fractionBits := by rw [Nat.succ_mul]; omega
      _ ≤ Nat.pow 2 f.exponentBits * Nat.pow 2 f.fractionBits := Nat.mul_le_mul_right _ hfield
  omega

theorem bits_ofFields :
    (ofFields f field fraction).bits.toNat = field * Nat.pow 2 f.fractionBits + fraction := by
  have hlt := fields_lt hfield hfraction
  exact (BitVec.toNat_ofNat _ _).trans (Nat.mod_eq_of_lt (by change _ < Nat.pow 2 f.bits; omega))

theorem fraction_ofFields : (ofFields f field fraction).fraction = fraction := by
  rw [Binary.fraction, bits_ofFields hfield hfraction, Nat.mul_comm, Nat.mul_add_mod,
    Nat.mod_eq_of_lt hfraction]

theorem exponentField_ofFields : (ofFields f field fraction).exponentField = field := by
  have hunit : 0 < Nat.pow 2 f.fractionBits := Nat.two_pow_pos _
  rw [exponentField, bits_ofFields hfield hfraction, Nat.mul_comm, Nat.mul_add_div hunit,
    Nat.div_eq_of_lt hfraction, Nat.add_zero, Nat.mod_eq_of_lt hfield]

theorem isNegative_ofFields : (ofFields f field fraction).isNegative = false := by
  have hlt := fields_lt hfield hfraction
  change BitVec.msb (ofFields f field fraction).bits = false
  rw [BitVec.msb_eq_false_iff_two_mul_lt, bits_ofFields hfield hfraction]
  exact hlt

theorem value_ofFields (hpos : 0 < field) (hlast : field ≠ Nat.pow 2 f.exponentBits - 1) :
    (ofFields f field fraction).value =
      .finite false (Nat.pow 2 f.fractionBits + fraction) (f.leastExponent + field - 1) := by
  rw [value, exponentField_ofFields hfield hfraction, fraction_ofFields hfield hfraction,
    isNegative_ofFields hfield hfraction, if_neg hlast, if_neg (Nat.ne_of_gt hpos)]

end Fields

end Binary

namespace Quotient

/-- No integer is nearer to `x` than `m`, and in the middle between two `m` is the even one. -/
structure Nearest (x : ℚ) (m : Nat) : Prop where
  abs_sub_le_half : |x - m| ≤ 1 / 2
  even_of_half : |x - m| = 1 / 2 → m % 2 = 0

namespace Nearest

variable {x : ℚ} {m : Nat} {j : ℤ}

/-- The distances to two integers add up to at least one. -/
theorem one_le_add (x : ℚ) (hne : j ≠ m) : 1 ≤ |x - j| + |x - m| := by
  have hone : (1 : ℚ) ≤ |(j : ℚ) - m| := by exact_mod_cast Int.one_le_abs (sub_ne_zero.mpr hne)
  have hsum := abs_add_le ((j : ℚ) - x) (x - m)
  rw [sub_add_sub_cancel, abs_sub_comm (j : ℚ) x] at hsum
  exact hone.trans hsum

theorem abs_sub_le (h : Nearest x m) (j : ℤ) : |x - m| ≤ |x - j| := by
  by_cases hne : j = m
  · rw [hne, Int.cast_natCast]
  · linarith [one_le_add x hne, h.abs_sub_le_half]

theorem even (h : Nearest x m) (heq : |x - j| = |x - m|) (hne : j ≠ m) : m % 2 = 0 := by
  have hsum := one_le_add x hne
  rw [heq] at hsum
  exact h.even_of_half (le_antisymm h.abs_sub_le_half (by linarith))

theorem ge_of_ge (h : Nearest x m) {n : Nat} (hle : n ≤ x) : n ≤ m := by
  by_contra hlt
  have hstep : (m : ℚ) + 1 ≤ n := by exact_mod_cast Nat.lt_of_not_le hlt
  have hhalf := abs_le.mp h.abs_sub_le_half
  linarith

theorem le_of_le (h : Nearest x m) {n : Nat} (hle : x ≤ n) : m ≤ n := by
  by_contra hlt
  have hstep : (n : ℚ) + 1 ≤ m := by exact_mod_cast Nat.lt_of_not_le hlt
  have hhalf := abs_le.mp h.abs_sub_le_half
  linarith

variable {q : Nat} {t : ℚ}

theorem of_le_half (hlow : 0 ≤ t) (hhigh : t ≤ 1 / 2) (heven : t = 1 / 2 → q % 2 = 0) :
    Nearest (q + t) q := by
  have habs : |(q : ℚ) + t - q| = t := by rw [add_sub_cancel_left, abs_of_nonneg hlow]
  exact ⟨habs.trans_le hhigh, fun htie => heven (habs.symm.trans htie)⟩

theorem of_ge_half (hlow : 1 / 2 ≤ t) (hhigh : t ≤ 1) (heven : t = 1 / 2 → (q + 1) % 2 = 0) :
    Nearest (q + t) (q + 1) := by
  have habs : |(q : ℚ) + t - ((q + 1 : ℕ) : ℚ)| = 1 - t := by
    rw [Nat.cast_add_one, add_sub_add_left_eq_sub, abs_sub_comm, abs_of_nonneg (by linarith)]
  refine ⟨?_, fun htie => heven ?_⟩
  · rw [habs]
    linarith
  · rw [habs] at htie
    linarith

end Nearest

theorem nearest_isNearest (num : Nat) {den : Nat} (hd : 0 < den) :
    Nearest (num / den) (nearest num den) := by
  have hden : (0 : ℚ) < den := Nat.cast_pos.mpr hd
  have hsplit : (num / den : ℚ) = (num / den : ℕ) + (num % den : ℕ) / den := by
    rw [eq_comm, add_div' _ _ _ hden.ne', div_left_inj' hden.ne']
    exact_mod_cast Nat.div_add_mod' num den
  have hle : ((num % den : ℕ) : ℚ) / den ≤ 1 / 2 ↔ 2 * (num % den) ≤ den := by
    rw [div_le_div_iff₀ hden two_pos, one_mul, mul_comm]
    norm_cast
  have heq : ((num % den : ℕ) : ℚ) / den = 1 / 2 ↔ 2 * (num % den) = den := by
    rw [div_eq_div_iff hden.ne' two_ne_zero, one_mul, mul_comm]
    norm_cast
  have hlt : ((num % den : ℕ) : ℚ) / den < 1 :=
    (div_lt_one hden).mpr (by exact_mod_cast Nat.mod_lt num hd)
  have hnonneg : 0 ≤ ((num % den : ℕ) : ℚ) / den := by positivity
  rw [hsplit, nearest]
  generalize ((num % den : ℕ) : ℚ) / den = t at *
  split
  · next hup =>
    have hge : 1 / 2 ≤ t := by
      by_contra hless
      have hsmall := hle.mp (by linarith)
      have hne : 2 * (num % den) ≠ den := fun hmid => hless (heq.mpr hmid).ge
      omega
    refine Nearest.of_ge_half hge hlt.le fun htie => ?_
    have hmid := heq.mp htie
    omega
  · next hdown =>
    refine Nearest.of_le_half hnonneg (hle.mpr (by omega)) fun htie => ?_
    have hmid := heq.mp htie
    omega

end Quotient

namespace Double

/-- The numbers of double precision from `2 ^ k` to `2 ^ (k + 1)` lie this far apart. -/
def gap (k : Nat) : ℚ := 2 ^ ((k : Int) - 52)

variable {k : Nat}

theorem gap_pos (k : Nat) : 0 < gap k := zpow_pos two_pos _

theorem gap_succ (k : Nat) : gap (k + 1) = 2 * gap k := by
  rw [gap, gap, ← zpow_one_add₀ two_ne_zero]
  congr 1
  push_cast
  ring

theorem mul_gap (k : Nat) : 2 ^ 52 * gap k = 2 ^ k := by
  rw [gap, ← zpow_natCast, ← zpow_add₀ two_ne_zero, ← zpow_natCast]
  congr 1
  push_cast
  ring

theorem gap_eq_pow {n : Nat} (h : k = n + 52) : gap k = Nat.pow 2 n := by
  rw [cast_pow, gap, ← zpow_natCast]
  congr 1
  omega

theorem pow_mul_gap {n : Nat} (h : k + n = 52) : (Nat.pow 2 n : ℕ) * gap k = 1 := by
  rw [cast_pow, gap, ← zpow_natCast, ← zpow_add₀ two_ne_zero, ← zpow_zero 2]
  congr 1
  omega

theorem pow_le_mul_gap_iff {x : ℚ} : 2 ^ k ≤ x * gap k ↔ 2 ^ 52 ≤ x := by
  rw [← mul_gap]
  exact mul_le_mul_iff_left₀ (gap_pos k)

theorem mul_gap_lt_pow_iff {x : ℚ} : x * gap k < 2 ^ (k + 1) ↔ x < 2 ^ 53 := by
  rw [pow_succ, ← mul_gap, mul_right_comm, ← pow_succ]
  exact mul_lt_mul_iff_left₀ (gap_pos k)

theorem field_lt {field : Nat} (h : field < 2047) : field < Nat.pow 2 11 := by
  change _ < 2048
  omega

theorem rational?_ofFields {field fraction : Nat} (hpos : 0 < field) (hlt : field < 2047)
    (hfraction : fraction < Nat.pow 2 52) : (Binary.ofFields .double field fraction).rational? =
      some ((2 ^ 52 + fraction : ℕ) * (2 : ℚ) ^ ((field : Int) - 1075)) := by
  have hexponent : BinaryFormat.double.leastExponent + field - 1 = (field : Int) - 1075 := by
    change (2 - 1076 : Int) + _ - 1 = _
    ring
  have hvalue := Binary.value_ofFields (f := .double) (field_lt hlt) hfraction hpos
    (by change _ ≠ 2048 - 1; omega)
  rw [hexponent] at hvalue
  rw [Binary.rational?, hvalue]
  exact congrArg some (one_mul _)

/-- A number with at most 53 significant bits has a pattern, unless it is too small or too large. -/
theorem exists_rational {m : Nat} {e : Int} (hm : 0 < m) (hlt : m < 2 ^ 53) (hlow : -1022 ≤ e)
    (hhigh : e ≤ 971) : ∃ x : Double, x.rational? = some (m * (2 : ℚ) ^ e) := by
  have hlog : m.log2 ≤ 52 := Nat.lt_succ_iff.mp ((Nat.log2_lt hm.ne').mpr hlt)
  obtain ⟨shift, hshift⟩ := Nat.exists_eq_add_of_le hlog
  obtain ⟨field, hfield⟩ := Int.eq_ofNat_of_zero_le (show 0 ≤ e - shift + 1075 by omega)
  have hfull : 2 ^ 52 ≤ m * 2 ^ shift := by
    rw [hshift, pow_add]
    exact Nat.mul_le_mul_right _ (Nat.log2_self_le hm.ne')
  have hbits : m * 2 ^ shift < 2 ^ 53 := by
    have hless : m < 2 ^ (m.log2 + 1) := Nat.lt_log2_self
    calc m * 2 ^ shift < 2 ^ (m.log2 + 1) * 2 ^ shift :=
          Nat.mul_lt_mul_of_pos_right hless (Nat.two_pow_pos _)
      _ = 2 ^ 53 := by rw [← pow_add, Nat.add_right_comm, ← hshift]
  obtain ⟨fraction, hfraction⟩ := Nat.exists_eq_add_of_le hfull
  refine ⟨.ofFields .double field fraction, ?_⟩
  have hfits : fraction < Nat.pow 2 52 := by
    change _ < 2 ^ 52
    omega
  rw [rational?_ofFields (by omega) (by omega) hfits, ← hfraction]
  have hexponent : (field : Int) - 1075 = e - shift := by omega
  rw [hexponent, zpow_sub₀ two_ne_zero, zpow_natCast, Nat.cast_mul, Nat.cast_pow, Nat.cast_ofNat,
    mul_assoc, mul_div_cancel₀ _ (by positivity)]

theorem gap_eq_field (k : Nat) : gap k = 2 ^ (((k + 1023 : ℕ) : Int) - 1075) := by
  have hexponent : ((k + 1023 : ℕ) : Int) - 1075 = k - 52 := by omega
  rw [gap, hexponent]

/-- A significand of 53 bits has a pattern, and an even significand has an even one. -/
theorem exists_double {m : Nat} (hlow : 2 ^ 52 ≤ m) (hhigh : m ≤ 2 ^ 53) (hk : k < 1023) :
    ∃ x : Double, x.rational? = some (m * gap k) ∧ (m % 2 = 0 → x.fraction % 2 = 0) := by
  rcases Nat.lt_or_eq_of_le hhigh with hlt | rfl
  · obtain ⟨fraction, rfl⟩ := Nat.exists_eq_add_of_le hlow
    have hfraction : fraction < Nat.pow 2 52 := by
      change _ < 2 ^ 52
      omega
    refine ⟨.ofFields .double (k + 1023) fraction, ?_, ?_⟩
    · rw [gap_eq_field]
      exact rational?_ofFields (by omega) (by omega) hfraction
    · rw [Binary.fraction_ofFields (field_lt (by omega)) hfraction]
      omega
  · have hfraction : 0 < Nat.pow 2 52 := Nat.two_pow_pos 52
    have hdouble : ((2 ^ 53 : ℕ) : ℚ) * gap k = (2 ^ 52 + 0 : ℕ) * gap (k + 1) := by
      rw [gap_succ, ← mul_assoc]
      norm_num
    refine ⟨.ofFields .double (k + 1 + 1023) 0, ?_, fun _ => ?_⟩
    · rw [hdouble, gap_eq_field]
      exact rational?_ofFields (by omega) (by omega) hfraction
    · rw [Binary.fraction_ofFields (field_lt (by omega)) hfraction]

theorem exists_pow (hk : k < 1023) : ∃ x : Double, x.rational? = some (2 ^ k) := by
  obtain ⟨x, hx, -⟩ := exists_double (Nat.le_refl (2 ^ 52)) (by omega) hk
  rw [Nat.cast_pow, Nat.cast_ofNat, mul_gap] at hx
  exact ⟨x, hx⟩

/-- From `2 ^ k` upwards every number of double precision is a whole number of gaps. -/
theorem exists_eq_mul_gap {y : Double} {s : ℚ} (hy : y.rational? = some s) (hs : 2 ^ k ≤ s) :
    ∃ j : ℤ, s = j * gap k := by
  obtain ⟨m, q, -, hm, rfl⟩ := Binary.exists_of_pos hy ((pow_pos two_pos k).trans_le hs)
  have hm' : (m : ℚ) < 2 ^ 53 := by
    rw [← cast_pow]
    exact_mod_cast hm
  have hq : (k : Int) - 52 ≤ q := by
    by_contra hlt
    have hplace : 2 * 2 ^ q ≤ gap k := by
      rw [gap, ← zpow_one_add₀ two_ne_zero]
      exact zpow_le_zpow_right₀ one_le_two (by omega)
    have hless : m * (2 : ℚ) ^ q < 2 ^ k := by
      calc m * (2 : ℚ) ^ q < 2 ^ 53 * 2 ^ q := mul_lt_mul_of_pos_right hm' (zpow_pos two_pos q)
        _ = 2 ^ 52 * (2 * 2 ^ q) := by rw [← mul_assoc, ← pow_succ]
        _ ≤ 2 ^ 52 * gap k := mul_le_mul_of_nonneg_left hplace (by positivity)
        _ = 2 ^ k := mul_gap k
    linarith
  obtain ⟨n, hn⟩ := Int.le.dest hq
  refine ⟨m * 2 ^ n, ?_⟩
  rw [← hn, gap, zpow_add₀ two_ne_zero, zpow_natCast]
  push_cast
  ring

variable {x : ℚ} {m : Nat}

theorem abs_sub_mul_gap (x j : ℚ) (k : Nat) : |x * gap k - j * gap k| = |x - j| * gap k := by
  rw [← sub_mul, abs_mul, abs_of_pos (gap_pos k)]

theorem abs_sub_lt_of_lt {s : ℚ} (hx : 2 ^ 52 ≤ x) (hm : Quotient.Nearest x m) (hs : s < 2 ^ k) :
    |x * gap k - m * gap k| < |x * gap k - s| := by
  have hlow : (2 : ℚ) ^ k ≤ x * gap k := pow_le_mul_gap_iff.mpr hx
  calc |x * gap k - m * gap k| = |x - m| * gap k := abs_sub_mul_gap x m k
    _ ≤ |x - (2 ^ 52 : ℤ)| * gap k := mul_le_mul_of_nonneg_right (hm.abs_sub_le _) (gap_pos k).le
    _ = |x * gap k - 2 ^ k| := by
      rw [← mul_gap, abs_sub_mul_gap]
      norm_cast
    _ = x * gap k - 2 ^ k := abs_of_nonneg (by linarith)
    _ < x * gap k - s := by linarith
    _ = |x * gap k - s| := (abs_of_pos (by linarith)).symm

/-- In double precision a number is rounded to the nearest whole number of gaps. -/
theorem exists_rounds {v : ℚ} (hm : Quotient.Nearest x m) (hv : x * gap k = v) (hk : k < 1023)
    (hlow : 2 ^ k ≤ v) (hhigh : v < 2 ^ (k + 1)) : ∃ d : Double, d.Rounds v (m * gap k) := by
  subst hv
  have hx : 2 ^ 52 ≤ x := pow_le_mul_gap_iff.mp hlow
  have hx' : x < 2 ^ 53 := mul_gap_lt_pow_iff.mp hhigh
  have hmlow : 2 ^ 52 ≤ m := hm.ge_of_ge (by exact_mod_cast hx)
  have hmhigh : m ≤ 2 ^ 53 := hm.le_of_le (by exact_mod_cast hx'.le)
  obtain ⟨d, hd, heven⟩ := exists_double hmlow hmhigh hk
  refine ⟨d, hd, fun y s hy => ?_, fun y s hy htie hne => ?_⟩
  · rcases lt_or_ge s (2 ^ k) with hbelow | habove
    · exact (abs_sub_lt_of_lt hx hm hbelow).le
    · obtain ⟨j, rfl⟩ := exists_eq_mul_gap hy habove
      rw [abs_sub_mul_gap, abs_sub_mul_gap]
      exact mul_le_mul_of_nonneg_right (hm.abs_sub_le j) (gap_pos k).le
  · rcases lt_or_ge s (2 ^ k) with hbelow | habove
    · exact absurd htie (abs_sub_lt_of_lt hx hm hbelow).ne'
    · obtain ⟨j, rfl⟩ := exists_eq_mul_gap hy habove
      rw [abs_sub_mul_gap, abs_sub_mul_gap] at htie
      have hj : j ≠ m := by
        rintro rfl
        exact hne (by rw [Int.cast_natCast])
      exact heven (hm.even (mul_right_cancel₀ (gap_pos k).ne' htie) hj)

end Double

namespace Quotient

theorem ceil_div (m : Nat) {unit : Nat} (h : 0 < unit) :
    (m + (unit - 1)) / unit = ⌈(m / unit : ℚ)⌉₊ := by
  have hunit : (0 : ℚ) < unit := Nat.cast_pos.mpr h
  apply eq_of_forall_ge_iff
  intro c
  rw [Nat.ceil_le, div_le_iff₀ hunit, Nat.div_le_iff_le_mul_add_pred h, Nat.add_le_add_iff_right,
    mul_comm]
  norm_cast

theorem pow_log2_le {num den : Nat} (hd : 0 < den) (hle : den ≤ num) :
    (2 : ℚ) ^ (num / den).log2 ≤ num / den := by
  have hden : (0 : ℚ) < den := Nat.cast_pos.mpr hd
  have hlog : 2 ^ (num / den).log2 ≤ num / den :=
    Nat.log2_self_le (Nat.div_pos hle hd).ne'
  rw [le_div_iff₀ hden]
  exact_mod_cast (Nat.le_div_iff_mul_le hd).mp hlog

theorem lt_pow_log2 (num : Nat) {den : Nat} (hd : 0 < den) :
    (num / den : ℚ) < 2 ^ ((num / den).log2 + 1) := by
  have hden : (0 : ℚ) < den := Nat.cast_pos.mpr hd
  have hlog : num / den < 2 ^ ((num / den).log2 + 1) := Nat.lt_log2_self
  rw [div_lt_iff₀ hden]
  exact_mod_cast (Nat.div_lt_iff_lt_mul hd).mp hlog

/-- The quotient is rounded up after it has been correctly rounded to double precision. -/
theorem ceilRounded_rounds {num den : Nat} (hd : 0 < den) (hle : den ≤ num)
    (hbound : (num / den).log2 < 1023) :
    ∃ (d : Double) (r : ℚ), d.Rounds (num / den) r ∧ ceilRounded 53 num den = ⌈r⌉₊ := by
  have hlow := pow_log2_le hd hle
  have hhigh := lt_pow_log2 num hd
  unfold ceilRounded
  generalize (num / den).log2 = k at *
  dsimp only
  split
  · next hfits =>
    have hone := Double.pow_mul_gap (k := k) (n := 53 - (k + 1)) (by omega)
    have hunit : 0 < Nat.pow 2 (53 - (k + 1)) := Nat.two_pow_pos _
    generalize Nat.pow 2 (53 - (k + 1)) = unit at *
    have hgap : Double.gap k = 1 / unit := eq_one_div_of_mul_eq_one_right hone
    have hquot : ((num * unit : ℕ) / den : ℚ) * Double.gap k = num / den := by
      rw [div_mul_eq_mul_div, Nat.cast_mul, mul_assoc, hone, mul_one]
    obtain ⟨d, hr⟩ := Double.exists_rounds (nearest_isNearest (num * unit) hd) hquot hbound hlow hhigh
    refine ⟨d, _, hr, ?_⟩
    rw [hgap, mul_one_div, ceil_div _ hunit]
  · next hwide =>
    have hgap := Double.gap_eq_pow (k := k) (n := k + 1 - 53) (by omega)
    have hunit : 0 < Nat.pow 2 (k + 1 - 53) := Nat.two_pow_pos _
    generalize Nat.pow 2 (k + 1 - 53) = unit at *
    have hquot : (num / (den * unit : ℕ) : ℚ) * Double.gap k = num / den := by
      rw [hgap, Nat.cast_mul, div_mul_eq_mul_div,
        mul_div_mul_right _ _ (Nat.cast_ne_zero.mpr hunit.ne')]
    obtain ⟨d, hr⟩ :=
      Double.exists_rounds (nearest_isNearest num (Nat.mul_pos hd hunit)) hquot hbound hlow hhigh
    refine ⟨d, _, hr, ?_⟩
    rw [hgap, ← Nat.cast_mul, Nat.ceil_natCast]

end Quotient

end LexBase
