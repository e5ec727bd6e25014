import LexBase.Sizing

/-!
# Sufficient geometries

A quotient that is at most a power of two does not exceed it when it is rounded, so the search for
a length stays within 63 doublings as long as even the whole domain asks for no more slots than
that. At the last of those lengths the threshold reaches every target, hence the search finds a
length. It is the least length whose threshold reaches the target: rounding up cannot skip a length,
and rounding down is made up for by the search. Twice the length has at least twice the threshold,
so a target above the threshold and up to twice of it asks for exactly twice the length.
-/

namespace LexBase

set_option autoImplicit false

namespace Quotient

theorem nearest_le {num den c : Nat} (hd : 0 < den) (h : num ≤ c * den) : nearest num den ≤ c := by
  have hq : num / den ≤ c := Nat.div_le_of_le_mul (by rw [Nat.mul_comm]; exact h)
  have hsplit := Nat.div_add_mod num den
  simp only [nearest]
  split
  · next hround =>
    rcases Nat.lt_or_eq_of_le hq with hlt | heq
    · exact hlt
    · have hr : num % den = 0 := by
        rw [heq, Nat.mul_comm] at hsplit
        omega
      omega
  · exact hq

theorem pow_pos (k : Nat) : 0 < Nat.pow 2 k := Nat.two_pow_pos k

theorem pow_add (j k : Nat) : Nat.pow 2 (j + k) = Nat.pow 2 j * Nat.pow 2 k := Nat.pow_add 2 j k

theorem log2_div_le {num den k : Nat} (hle : den ≤ num) (hd : 0 < den)
    (h : num ≤ Nat.pow 2 k * den) : (num / den).log2 ≤ k := by
  have hne : num / den ≠ 0 := by
    have := Nat.div_pos hle hd
    omega
  have hq : num / den ≤ Nat.pow 2 k := Nat.div_le_of_le_mul (by rw [Nat.mul_comm]; exact h)
  have hpow : Nat.pow 2 (k + 1) = Nat.pow 2 k * 2 := rfl
  have hpos := pow_pos k
  exact Nat.lt_succ_iff.mp ((Nat.log2_lt hne).mpr (by change _ < Nat.pow 2 (k + 1); omega))

/-- A power of two can be written with any precision, so rounding does not pass it. -/
theorem ceilRounded_le {precision num den k : Nat} (hp : 0 < precision) (hd : 0 < den)
    (hle : den ≤ num) (h : num ≤ Nat.pow 2 k * den) :
    ceilRounded precision num den ≤ Nat.pow 2 k := by
  have hlog := log2_div_le hle hd h
  simp only [ceilRounded]
  split
  · have hu := pow_pos (precision - ((num / den).log2 + 1))
    generalize Nat.pow 2 (precision - ((num / den).log2 + 1)) = unit at hu ⊢
    have hn : nearest (num * unit) den ≤ Nat.pow 2 k * unit := by
      apply nearest_le hd
      rw [Nat.mul_right_comm]
      exact Nat.mul_le_mul_right unit h
    apply Nat.lt_succ_iff.mp
    rw [Nat.div_lt_iff_lt_mul hu, Nat.succ_mul]
    omega
  · obtain ⟨j, hj⟩ : ∃ j, k = j + ((num / den).log2 + 1 - precision) :=
      ⟨_, (Nat.sub_add_cancel (by omega)).symm⟩
    generalize (num / den).log2 + 1 - precision = s at hj ⊢
    subst hj
    rw [pow_add] at h ⊢
    apply Nat.mul_le_mul_right
    apply nearest_le (Nat.mul_pos hd (pow_pos s))
    rw [Nat.mul_comm den, ← Nat.mul_assoc]
    exact h

theorem ceilLog2_le {n k : Nat} (h : n ≤ Nat.pow 2 k) : ceilLog2 n ≤ k := by
  unfold ceilLog2
  split
  · exact Nat.zero_le k
  · exact (Nat.log2_lt (by omega)).mpr (by change _ < Nat.pow 2 k; omega)

theorem ceilLog2_pos {n : Nat} (h : 2 ≤ n) : 0 < ceilLog2 n := by
  unfold ceilLog2
  rw [if_neg (by omega)]
  exact Nat.succ_pos _

end Quotient

/-- Even for all keys of the width the load factor asks for at most `2 ^ 63` slots. -/
def LoadFactor.Admissible (lf : LoadFactor) (w : Width) : Prop :=
  w.domain * Nat.pow 2 lf.scale ≤ Nat.pow 2 63 * lf.num

theorem LoadFactor.standard_admissible (w : Width) : LoadFactor.standard.Admissible w := by
  cases w <;> exact Nat.le_of_ble_eq_true rfl

namespace Sizing

variable {w : Width} {lf : LoadFactor}

theorem length_pos (s : Sizing) : 0 < s.length := Quotient.pow_pos s.order

theorem threshold_lt (s : Sizing) : s.threshold < s.length := by
  have hpos := s.length_pos
  have hmin : s.threshold ≤ s.length - 1 := Nat.min_le_right _ _
  exact Nat.lt_of_le_of_lt hmin (by omega)

theorem threshold_mono {s s' : Sizing} (hlf : s'.loadFactor = s.loadFactor)
    (h : s.order ≤ s'.order) : s.threshold ≤ s'.threshold := by
  have hlen : s.length ≤ s'.length := Nat.pow_le_pow_right Nat.two_pos h
  unfold threshold
  rw [hlf]
  apply Nat.le_min.mpr
  constructor
  · exact Nat.le_trans (Nat.min_le_left _ _)
      (Nat.div_le_div_right (Nat.mul_le_mul_right _ hlen))
  · exact Nat.le_trans (Nat.min_le_right _ _) (Nat.sub_le_sub_right hlen 1)

theorem clamp_pos (target domain : Nat) : 0 < clamp target domain := by
  unfold clamp
  omega

theorem clamp_le {domain : Nat} (h : 0 < domain) (target : Nat) :
    clamp target domain ≤ domain := by
  unfold clamp
  omega

theorem domain_le (w : Width) : w.domain ≤ Nat.pow 2 63 - 1 := by
  cases w <;> exact Nat.le_of_ble_eq_true rfl

theorem slotsFor_le (h : lf.Admissible w) {n : Nat} (hn : 0 < n) (hdom : n ≤ w.domain) :
    lf.slotsFor n ≤ Nat.pow 2 63 := by
  apply Quotient.ceilRounded_le (by omega) lf.num_pos
  · exact Nat.le_trans (Nat.le_of_lt lf.lt_one) (Nat.le_mul_of_pos_left _ hn)
  · exact Nat.le_trans (Nat.mul_le_mul_right _ hdom) h

theorem le_threshold_last (h : lf.Admissible w) {n : Nat} (hdom : n ≤ w.domain) :
    n ≤ threshold ⟨63, lf⟩ := by
  refine Nat.le_min.mpr ⟨?_, Nat.le_trans hdom (domain_le w)⟩
  apply (Nat.le_div_iff_mul_le (Quotient.pow_pos _)).mpr
  exact Nat.le_trans (Nat.mul_le_mul_right _ hdom) h

structure Suffices (s : Sizing) (lf : LoadFactor) (n : Nat) : Prop where
  loadFactor_eq : s.loadFactor = lf
  order_pos : 0 < s.order
  le_threshold : n ≤ s.threshold

theorem forTarget_suffices (h : lf.Admissible w) (target : Nat) :
    (forTarget target lf w.domain).Suffices lf (clamp target w.domain) := by
  have hpos := clamp_pos target w.domain
  have hdom := clamp_le w.domain_pos target
  have hslots := slotsFor_le h hpos hdom
  simp only [forTarget]
  generalize clamp target w.domain = n at hpos hdom hslots
  have hfirst : Quotient.ceilLog2 (max 2 (lf.slotsFor n)) ≤ 63 :=
    Quotient.ceilLog2_le (Nat.max_le.mpr ⟨Nat.le_of_ble_eq_true rfl, hslots⟩)
  have hone : 0 < Quotient.ceilLog2 (max 2 (lf.slotsFor n)) :=
    Quotient.ceilLog2_pos (Nat.le_max_left _ _)
  generalize Quotient.ceilLog2 (max 2 (lf.slotsFor n)) = first at hfirst hone
  cases hfound : firstSome (fun order => if n ≤ threshold ⟨order, lf⟩ then some order else none)
      first (64 - first) with
  | none =>
    have hlast := firstSome_eq_none_iff.mp hfound (63 - first) (by omega)
    rw [Nat.add_sub_cancel' hfirst, if_pos (le_threshold_last h hdom)] at hlast
    simp at hlast
  | some order =>
    obtain ⟨i, _, hi, _⟩ := firstSome_eq_some_iff.mp hfound
    split at hi
    · next hle =>
      obtain rfl := Option.some.inj hi
      exact ⟨rfl, by simp only [Option.getD_some]; omega, hle⟩
    · simp at hi

theorem two_mul_threshold_le (s : Sizing) :
    2 * s.threshold ≤ threshold ⟨s.order + 1, s.loadFactor⟩ := by
  have hlen : length ⟨s.order + 1, s.loadFactor⟩ = s.length * 2 := rfl
  have hdiv := Nat.mul_div_le_mul_div_assoc 2 (s.length * s.loadFactor.num)
    (Nat.pow 2 s.loadFactor.scale)
  have hmul : 2 * (s.length * s.loadFactor.num) = s.length * 2 * s.loadFactor.num := by
    rw [← Nat.mul_assoc, Nat.mul_comm 2]
  rw [hmul] at hdiv
  simp only [threshold, hlen]
  omega

theorem clamp_mono {target target' : Nat} (h : target ≤ target') (domain : Nat) :
    clamp target domain ≤ clamp target' domain := by
  unfold clamp
  omega

/-- The search starts at or below every length whose threshold reaches the target. -/
theorem ceilLog2_slotsFor_le {n order : Nat} (hn : 0 < n) (ho : 0 < order)
    (hfit : n ≤ threshold ⟨order, lf⟩) :
    Quotient.ceilLog2 (max 2 (lf.slotsFor n)) ≤ order := by
  have hquot : n ≤ Nat.pow 2 order * lf.num / Nat.pow 2 lf.scale :=
    Nat.le_trans hfit (Nat.min_le_left _ _)
  apply Quotient.ceilLog2_le
  apply Nat.max_le.mpr
  constructor
  · exact Nat.pow_le_pow_right Nat.two_pos ho
  · apply Quotient.ceilRounded_le (by omega) lf.num_pos
    · exact Nat.le_trans (Nat.le_of_lt lf.lt_one) (Nat.le_mul_of_pos_left _ hn)
    · exact (Nat.le_div_iff_mul_le (Quotient.pow_pos _)).mp hquot

theorem forTarget_order_le {target domain order : Nat} (ho : 0 < order)
    (hfit : clamp target domain ≤ threshold ⟨order, lf⟩) :
    (forTarget target lf domain).order ≤ order := by
  have hfirst := ceilLog2_slotsFor_le (clamp_pos target domain) ho hfit
  simp only [forTarget]
  generalize clamp target domain = n at hfirst hfit
  generalize Quotient.ceilLog2 (max 2 (lf.slotsFor n)) = first at hfirst
  cases hfound : firstSome (fun order => if n ≤ threshold ⟨order, lf⟩ then some order else none)
      first (64 - first) with
  | none => exact hfirst
  | some found =>
    obtain ⟨i, _, hi, hbefore⟩ := firstSome_eq_some_iff.mp hfound
    split at hi
    · obtain rfl := Option.some.inj hi
      apply Nat.le_of_not_lt
      intro hlt
      simp only [Option.getD_some] at hlt
      have hskip := hbefore (order - first) (by omega)
      rw [Nat.add_sub_cancel' hfirst, if_pos hfit] at hskip
      cases hskip
    · cases hi

/-- The least sizing that suffices is the one that is found. -/
theorem forTarget_eq_of_least (h : lf.Admissible w) {target : Nat} {s : Sizing}
    (hs : s.Suffices lf (clamp target w.domain))
    (hleast : ∀ order, 0 < order → clamp target w.domain ≤ threshold ⟨order, lf⟩ →
      s.order ≤ order) : forTarget target lf w.domain = s := by
  have hfound := forTarget_suffices h target
  obtain ⟨order, lf'⟩ := s
  obtain rfl : lf' = lf := hs.loadFactor_eq
  have hle := forTarget_order_le hs.order_pos hs.le_threshold
  have hge := hleast _ hfound.order_pos hfound.le_threshold
  exact congrArg (Sizing.mk · lf') (Nat.le_antisymm hle hge)

theorem forTarget_eq_of_le (h : lf.Admissible w) {target target' : Nat} (hle : target ≤ target')
    (hfit : clamp target' w.domain ≤ (forTarget target lf w.domain).threshold) :
    forTarget target' lf w.domain = forTarget target lf w.domain := by
  have hs := forTarget_suffices h target
  refine forTarget_eq_of_least h ⟨hs.loadFactor_eq, hs.order_pos, hfit⟩ ?_
  intro order ho hreach
  exact forTarget_order_le ho (Nat.le_trans (clamp_mono hle w.domain) hreach)

theorem forTarget_eq_double (h : lf.Admissible w) {target : Nat} {s : Sizing}
    (hlf : s.loadFactor = lf) (hlt : s.threshold < clamp target w.domain)
    (hle : clamp target w.domain ≤ 2 * s.threshold) :
    forTarget target lf w.domain = ⟨s.order + 1, lf⟩ := by
  subst hlf
  refine forTarget_eq_of_least h
    ⟨rfl, Nat.succ_pos _, Nat.le_trans hle s.two_mul_threshold_le⟩ ?_
  intro order _ hreach
  apply Nat.lt_of_not_le
  intro hle'
  have hmono : threshold ⟨order, s.loadFactor⟩ ≤ s.threshold := threshold_mono rfl hle'
  omega

theorem forTarget_length_mono (h : lf.Admissible w) {target target' : Nat}
    (hle : clamp target w.domain ≤ clamp target' w.domain) :
    (forTarget target lf w.domain).length ≤ (forTarget target' lf w.domain).length := by
  have hs := forTarget_suffices h target'
  exact Nat.pow_le_pow_right Nat.two_pos
    (forTarget_order_le hs.order_pos (Nat.le_trans hle hs.le_threshold))

theorem length_ge_two {s : Sizing} (h : 0 < s.order) : 2 ≤ s.length := by
  obtain ⟨k, hk⟩ := Nat.exists_eq_succ_of_ne_zero (by omega : s.order ≠ 0)
  have hpow : Nat.pow 2 (k + 1) = Nat.pow 2 k * 2 := rfl
  have hpos := Quotient.pow_pos k
  rw [length, hk, hpow]
  omega

end Sizing

end LexBase
