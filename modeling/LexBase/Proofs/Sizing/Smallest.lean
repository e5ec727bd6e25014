import Mathlib.Algebra.Order.Archimedean.Basic
import Mathlib.Algebra.Order.Floor.Semifield
import LexBase.Proofs.Numeral.Rounding
import LexBase.Proofs.Sizing

/-!
# Smallest geometries

A quotient above a power of two stays above it when it is rounded: numerator and denominator have few bits,
so it exceeds the power by far more than a gap between numbers of double precision. Hence the first length
that is tried suffices, and it is the least one whose exact threshold reaches the target. The product of a
length and a load factor needs no rounding: a power of two does not add to the bits of the load factor.
-/

namespace LexBase

set_option autoImplicit false

namespace Quotient

theorem ceilLog2_eq {c k : Nat} (hlow : 2 ^ k < c) (hhigh : c ≤ 2 ^ (k + 1)) : ceilLog2 c = k + 1 := by
  have hpos : 0 < 2 ^ k := Nat.two_pow_pos k
  unfold ceilLog2
  have hlog : (c - 1).log2 = k :=
    (Nat.log2_eq_iff (by omega)).mpr ⟨Nat.le_sub_one_of_lt hlow, by omega⟩
  rw [if_neg (by omega), hlog]

end Quotient

namespace LoadFactor

def rational (lf : LoadFactor) : ℚ := lf.num / 2 ^ lf.scale

theorem rational_pos (lf : LoadFactor) : 0 < lf.rational :=
  div_pos (Nat.cast_pos.mpr lf.num_pos) (by positivity)

theorem rational_lt_one (lf : LoadFactor) : lf.rational < 1 := by
  have hlt : lf.num < 2 ^ lf.scale := lf.lt_one
  rw [rational, div_lt_one (by positivity)]
  exact_mod_cast hlt

theorem exists_ofSingle? {x : Single} {v : ℚ} (hx : x.rational? = some v) (hpos : 0 < v)
    (hlt : v < 1) : ∃ lf, ofSingle? x = some lf ∧ lf.rational = v ∧ lf.scale ≤ 149 := by
  obtain ⟨m, q, hvalue, hbits, rfl⟩ := Binary.exists_of_pos hx hpos
  have hleast : -149 ≤ q := Binary.leastExponent_le hvalue
  have hplace : (0 : ℚ) < 2 ^ q := zpow_pos two_pos q
  have hm : 0 < m := Nat.cast_pos.mp (pos_of_mul_pos_left hpos hplace.le)
  have hq : q < 0 := by
    by_contra hge
    have hone : (1 : ℚ) ≤ m * 2 ^ q :=
      one_le_mul_of_one_le_of_one_le (Nat.one_le_cast.mpr hm)
        (one_le_zpow₀ one_le_two (not_lt.mp hge))
    linarith
  obtain ⟨scale, rfl⟩ := Int.exists_eq_neg_ofNat hq.le
  rw [zpow_neg, zpow_natCast, ← div_eq_mul_inv] at hlt ⊢
  have hscale : m < 2 ^ scale := by
    rw [div_lt_one (by positivity)] at hlt
    exact_mod_cast hlt
  refine ⟨⟨m, scale, hm, hbits, hscale⟩, ?_, rfl, by dsimp only; omega⟩
  have hwhole : (-(-(scale : Int))).toNat = scale := by omega
  simp only [ofSingle?, hvalue, hwhole]
  exact dif_pos ⟨hm, hbits, hscale⟩

theorem div_rational (lf : LoadFactor) (n : Nat) :
    (n / lf.rational : ℚ) = (n * Nat.pow 2 lf.scale : ℕ) / lf.num := by
  rw [rational, div_div_eq_mul_div, Nat.cast_mul, cast_pow]

theorem slotsFor_rounds {lf : LoadFactor} {n : Nat} (hn : 0 < n) (hfit : n / lf.rational ≤ 2 ^ 63) :
    ∃ (d : Double) (r : ℚ), d.Rounds (n / lf.rational) r ∧ lf.slotsFor n = ⌈r⌉₊ := by
  rw [div_rational] at hfit ⊢
  have hle : lf.num ≤ n * Nat.pow 2 lf.scale :=
    Nat.le_trans (Nat.le_of_lt lf.lt_one) (Nat.le_mul_of_pos_left _ hn)
  have hbound : n * Nat.pow 2 lf.scale ≤ Nat.pow 2 63 * lf.num := by
    rw [div_le_iff₀ (Nat.cast_pos.mpr lf.num_pos)] at hfit
    exact_mod_cast hfit
  exact Quotient.ceilRounded_rounds lf.num_pos hle
    (Nat.lt_of_le_of_lt (Quotient.log2_div_le hle lf.num_pos hbound) (by decide))

/-- The product of a load factor and a length is a number of double precision. -/
theorem exists_product {lf : LoadFactor} {order : Nat} (hscale : lf.scale ≤ 149) (horder : order < 64) :
    ∃ d : Double, d.rational? = some (2 ^ order * lf.rational) := by
  have hbits := lf.num_lt
  change lf.num < 2 ^ 24 at hbits
  obtain ⟨d, hd⟩ := Double.exists_rational (m := lf.num) (e := order - lf.scale) lf.num_pos
    (by omega) (by omega) (by omega)
  refine ⟨d, hd.trans (congrArg some ?_)⟩
  rw [rational, zpow_sub₀ two_ne_zero, zpow_natCast, zpow_natCast]
  ring

/-- Two different products of a number below `2 ^ 24` and a power of two are far apart. -/
theorem mul_lt_of_lt {m n k s : Nat} (hm : m < 2 ^ 24) (hn : n < 2 ^ 24) (h : 2 ^ k * m < n * 2 ^ s) :
    2 ^ k * m * (2 ^ 24 + 1) < n * 2 ^ s * 2 ^ 24 := by
  have hstep : ∀ {a b : Nat}, a < b → a < 2 ^ 24 → a * (2 ^ 24 + 1) < b * 2 ^ 24 := by
    intro a b hab ha
    omega
  rcases Nat.le_total k s with hle | hle
  · obtain ⟨j, rfl⟩ := Nat.exists_eq_add_of_le hle
    have hlt : m < n * 2 ^ j := by
      rw [pow_add, mul_left_comm] at h
      exact Nat.lt_of_mul_lt_mul_left h
    calc 2 ^ k * m * (2 ^ 24 + 1)
        = 2 ^ k * (m * (2 ^ 24 + 1)) := by ring
      _ < 2 ^ k * (n * 2 ^ j * 2 ^ 24) :=
        Nat.mul_lt_mul_of_pos_left (hstep hlt hm) (Nat.two_pow_pos k)
      _ = n * 2 ^ (k + j) * 2 ^ 24 := by ring
  · obtain ⟨j, rfl⟩ := Nat.exists_eq_add_of_le hle
    have hlt : 2 ^ j * m < n := by
      rw [pow_add, mul_assoc, mul_comm n] at h
      exact Nat.lt_of_mul_lt_mul_left h
    calc 2 ^ (s + j) * m * (2 ^ 24 + 1)
        = 2 ^ s * (2 ^ j * m * (2 ^ 24 + 1)) := by ring
      _ < 2 ^ s * (n * 2 ^ 24) :=
        Nat.mul_lt_mul_of_pos_left (hstep hlt (hlt.trans hn)) (Nat.two_pow_pos s)
      _ = n * 2 ^ s * 2 ^ 24 := by ring

/-- A quotient above a power of two exceeds it by more than a part in `2 ^ 24`. -/
theorem gap_of_lt {lf : LoadFactor} {n k : Nat} (hn : n < 2 ^ 24) (h : 2 ^ k < n / lf.rational) :
    2 ^ k * (2 ^ 24 + 1) / 2 ^ 24 < n / lf.rational := by
  have hnum : (0 : ℚ) < lf.num := Nat.cast_pos.mpr lf.num_pos
  rw [rational, div_div_eq_mul_div, lt_div_iff₀ hnum] at h
  have hfar := mul_lt_of_lt lf.num_lt hn (by exact_mod_cast h)
  rw [rational, div_div_eq_mul_div, div_lt_div_iff₀ (by positivity) hnum, mul_right_comm]
  exact_mod_cast hfar

theorem lt_rounded {lf : LoadFactor} {n k : Nat} {d : Double} {r : ℚ} (hk : k < 1023)
    (hr : d.Rounds (n / lf.rational) r) (hn : n < 2 ^ 24) (h : 2 ^ k < n / lf.rational) :
    2 ^ k < r := by
  have hlow : 2 ^ 52 ≤ 2 ^ 52 + 2 ^ 28 := by decide
  obtain ⟨z, hz, -⟩ := Double.exists_double hlow (by decide) hk
  have hvalue : ((2 ^ 52 + 2 ^ 28 : ℕ) : ℚ) * Double.gap k = 2 ^ k * (2 ^ 24 + 1) / 2 ^ 24 := by
    rw [← Double.mul_gap]
    push_cast
    ring
  rw [hvalue] at hz
  have hle := hr.le_of_le hz (gap_of_lt hn h).le
  have hpow : (0 : ℚ) < 2 ^ k := by positivity
  linarith

theorem rounded_le {lf : LoadFactor} {n k : Nat} {d : Double} {r : ℚ} (hk : k < 1023)
    (hr : d.Rounds (n / lf.rational) r) (h : n / lf.rational ≤ 2 ^ k) : r ≤ 2 ^ k := by
  obtain ⟨z, hz⟩ := Double.exists_pow hk
  exact hr.ge_of_ge hz h

theorem ceilLog2_rounded {lf : LoadFactor} {n k : Nat} {d : Double} {r : ℚ} (hk : k + 1 < 1023)
    (hr : d.Rounds (n / lf.rational) r) (hn : n < 2 ^ 24) (hlow : 2 ^ k < n / lf.rational)
    (hhigh : n / lf.rational ≤ 2 ^ (k + 1)) : Quotient.ceilLog2 (max 2 ⌈r⌉₊) = k + 1 := by
  have hlt : 2 ^ k < ⌈r⌉₊ := by
    rw [Nat.lt_ceil, Nat.cast_pow, Nat.cast_ofNat]
    exact lt_rounded (by omega) hr hn hlow
  have hle : ⌈r⌉₊ ≤ 2 ^ (k + 1) := by
    rw [Nat.ceil_le, Nat.cast_pow, Nat.cast_ofNat]
    exact rounded_le hk hr hhigh
  have hone : 0 < 2 ^ k := Nat.two_pow_pos k
  rw [Nat.max_eq_right (by omega)]
  exact Quotient.ceilLog2_eq hlt hle

end LoadFactor

namespace Sizing

variable {w : Width} {lf : LoadFactor}

/-- The threshold by the product of length and load factor as it is rounded to double precision. -/
structure Product (s : Sizing) (v : ℚ) : Prop where
  rounded : ∃ (d : Double) (r : ℚ), d.Rounds (s.length * v) r ∧
    s.threshold = min ⌊r⌋₊ (s.length - 1)
  exact : ∀ (d : Double) (r : ℚ), d.Rounds (s.length * v) r → r = s.length * v

/-- A table with this geometry holds `n` entries at a load factor of `v`, no smaller one does, and the
threshold is the exact one. -/
structure Smallest (s : Sizing) (v : ℚ) (n : Nat) : Prop where
  order_pos : 0 < s.order
  threshold_eq : s.threshold = ⌊s.length * v⌋₊
  product : s.Product v
  le_threshold : n ≤ s.threshold
  threshold_lt : s.threshold < s.length
  length_le : ∀ order, 0 < order → n ≤ ⌊2 ^ order * v⌋₊ → s.length ≤ 2 ^ order

/-- The length is the first candidate: the least power of two from the quotient upwards, the quotient being
rounded to double precision. -/
structure FirstTry (s : Sizing) (v : ℚ) (n : Nat) : Prop where
  rounded : ∃ (d : Double) (r : ℚ), d.Rounds (n / v) r ∧ s.loadFactor.slotsFor n = ⌈r⌉₊
  order_eq : ∀ (d : Double) (r : ℚ), d.Rounds (n / v) r → s.order = Quotient.ceilLog2 (max 2 ⌈r⌉₊)

theorem cast_length (s : Sizing) : (s.length : ℚ) = 2 ^ s.order := cast_pow s.order

theorem threshold_eq_floor (s : Sizing) : s.threshold = ⌊s.length * s.loadFactor.rational⌋₊ := by
  have hlt := s.loadFactor.lt_one
  have hexact : ⌊s.length * s.loadFactor.rational⌋₊ =
      s.length * s.loadFactor.num / Nat.pow 2 s.loadFactor.scale := by
    rw [LoadFactor.rational, mul_div_assoc', ← Nat.floor_div_eq_div (K := ℚ), Nat.cast_mul, cast_pow]
  rw [hexact, threshold]
  apply Nat.min_eq_left
  apply Nat.le_sub_one_of_lt
  rw [Nat.div_lt_iff_lt_mul (Quotient.pow_pos _)]
  exact Nat.mul_lt_mul_of_pos_left hlt s.length_pos

theorem product {s : Sizing} (hscale : s.loadFactor.scale ≤ 149) (horder : s.order < 64) :
    s.Product s.loadFactor.rational := by
  obtain ⟨d, hd⟩ := LoadFactor.exists_product hscale horder
  rw [← cast_length] at hd
  refine ⟨⟨d, _, .of_exact hd, ?_⟩, fun _ _ hr => hr.eq_of_exact hd⟩
  rw [← threshold_eq_floor]
  exact (Nat.min_eq_left (Nat.le_sub_one_of_lt s.threshold_lt)).symm

theorem exists_order {n : Nat} (hn : 0 < n) (hfit : n / lf.rational ≤ 2 ^ 63) :
    ∃ k, k < 63 ∧ 2 ^ k < n / lf.rational ∧ n / lf.rational ≤ 2 ^ (k + 1) := by
  have hone : 1 < n / lf.rational := by
    rw [lt_div_iff₀ lf.rational_pos, one_mul]
    exact lf.rational_lt_one.trans_le (Nat.one_le_cast.mpr hn)
  obtain ⟨e, hlow, hhigh⟩ := exists_mem_Ioc_zpow (zero_lt_one.trans hone) (one_lt_two (α := ℚ))
  have hnonneg : 0 < e + 1 := (one_lt_zpow_iff_right₀ one_lt_two).mp (hone.trans_le hhigh)
  obtain ⟨k, rfl⟩ := Int.eq_ofNat_of_zero_le (Int.lt_add_one_iff.mp hnonneg)
  have hlt : (2 : ℚ) ^ k < 2 ^ 63 := lt_of_lt_of_le (by exact_mod_cast hlow) hfit
  exact ⟨k, (pow_lt_pow_iff_right₀ one_lt_two).mp hlt, by exact_mod_cast hlow, by exact_mod_cast hhigh⟩

theorem forTarget_eq_first {target domain first : Nat}
    (hfirst : Quotient.ceilLog2 (max 2 (lf.slotsFor (clamp target domain))) = first)
    (hlt : first < 64) (hle : clamp target domain ≤ threshold ⟨first, lf⟩) :
    forTarget target lf domain = ⟨first, lf⟩ := by
  obtain ⟨count, hcount⟩ : ∃ count, 64 - first = count + 1 := ⟨63 - first, by omega⟩
  simp only [forTarget, hfirst, hcount, firstSome, if_pos hle, Option.getD_some]

theorem forTarget_first {target domain : Nat} (hscale : lf.scale ≤ 149)
    (hdom : clamp target domain < 2 ^ 24) (hfit : clamp target domain / lf.rational ≤ 2 ^ 63) :
    (forTarget target lf domain).Smallest lf.rational (clamp target domain) ∧
      (forTarget target lf domain).FirstTry lf.rational (clamp target domain) := by
  have hpos := clamp_pos target domain
  obtain ⟨k, hk, hlow, hhigh⟩ := exists_order hpos hfit
  have horder : ∀ (d : Double) (r : ℚ), d.Rounds (clamp target domain / lf.rational) r →
      Quotient.ceilLog2 (max 2 ⌈r⌉₊) = k + 1 := fun d r hr =>
    LoadFactor.ceilLog2_rounded (by omega) hr hdom hlow hhigh
  obtain ⟨d, r, hr, hslots⟩ := LoadFactor.slotsFor_rounds hpos hfit
  have hreach : clamp target domain ≤ threshold ⟨k + 1, lf⟩ := by
    rw [threshold_eq_floor, cast_length]
    exact Nat.le_floor ((div_le_iff₀ lf.rational_pos).mp hhigh)
  have hfirst : Quotient.ceilLog2 (max 2 (lf.slotsFor (clamp target domain))) = k + 1 := by
    rw [hslots, horder d r hr]
  rw [forTarget_eq_first hfirst (by omega) hreach]
  have hproduct : Product ⟨k + 1, lf⟩ lf.rational := product hscale (Nat.succ_lt_succ hk)
  refine ⟨⟨Nat.succ_pos k, threshold_eq_floor _, hproduct, hreach, threshold_lt _, ?_⟩,
    ⟨d, r, hr, hslots⟩, fun d r hr => (horder d r hr).symm⟩
  intro order _ hreach'
  have hquot : clamp target domain / lf.rational ≤ 2 ^ order := by
    rw [div_le_iff₀ lf.rational_pos]
    exact (Nat.le_floor_iff' hpos.ne').mp hreach'
  have hk' : k < order := (pow_lt_pow_iff_right₀ one_lt_two).mp (hlow.trans_le hquot)
  exact Nat.pow_le_pow_right Nat.two_pos hk'

theorem forTarget_mono {target target' domain : Nat} (h : target' ≤ target)
    (hs : (forTarget target lf domain).Smallest lf.rational (clamp target domain)) :
    (forTarget target' lf domain).length ≤ (forTarget target lf domain).length ∧
      (forTarget target' lf domain).threshold ≤ (forTarget target lf domain).threshold := by
  have horder : (forTarget target' lf domain).order ≤ (forTarget target lf domain).order :=
    forTarget_order_le hs.order_pos (Nat.le_trans (clamp_mono h domain) hs.le_threshold)
  exact ⟨Nat.pow_le_pow_right Nat.two_pos horder, threshold_mono rfl horder⟩

/-- At any load factor the geometry for a target is the smallest one, is found at the first try and does not
shrink with a greater target. -/
theorem forTarget_smallest {x : Single} {v : ℚ} {target : Nat} (hx : x.rational? = some v)
    (hpos : 0 < v) (hlt : v < 1) (hfit : ((clamp target w.domain : ℕ) : ℚ) / v ≤ 2 ^ 63) :
    ∃ lf, LoadFactor.ofSingle? x = some lf ∧
      (forTarget target lf w.domain).Smallest v (clamp target w.domain) ∧
      (forTarget target lf w.domain).FirstTry v (clamp target w.domain) ∧
      ∀ target', target' ≤ target →
        (forTarget target' lf w.domain).length ≤ (forTarget target lf w.domain).length ∧
        (forTarget target' lf w.domain).threshold ≤ (forTarget target lf w.domain).threshold := by
  obtain ⟨lf, hlf, rfl, hscale⟩ := LoadFactor.exists_ofSingle? hx hpos hlt
  have hdom : w.domain < 2 ^ 24 := by cases w <;> decide
  obtain ⟨hsmallest, hfirst⟩ :=
    forTarget_first hscale ((clamp_le w.domain_pos target).trans_lt hdom) hfit
  exact ⟨lf, hlf, hsmallest, hfirst, fun _ h => forTarget_mono h hsmallest⟩

/-- The greatest number of single precision below one. -/
def almostOne : Single := ⟨0x3f7fffff⟩

theorem almostOne_rational : almostOne.rational? = some (16777215 / 16777216) := by
  have hvalue : almostOne.value = .finite false 16777215 (-24) := by decide
  rw [Binary.rational?, hvalue]
  norm_num [BinaryValue.rational?]

/-- Half of the word units ask for twice as many slots, since the threshold `32767` would be one short. -/
theorem almostOne_smallest :
    ∃ lf, LoadFactor.ofSingle? almostOne = some lf ∧
      (forTarget 32768 lf Width.word.domain).Smallest (16777215 / 16777216) 32768 ∧
      (forTarget 32768 lf Width.word.domain).FirstTry (16777215 / 16777216) 32768 ∧
      (forTarget 32768 lf Width.word.domain).length = 65536 ∧
      (forTarget 32768 lf Width.word.domain).threshold = 65535 := by
  have hclamp : clamp 32768 Width.word.domain = 32768 := by decide
  have hfit : ((clamp 32768 Width.word.domain : ℕ) : ℚ) / (16777215 / 16777216) ≤ 2 ^ 63 := by
    rw [hclamp]
    norm_num
  obtain ⟨lf, hlf, hsmallest, hfirst, -⟩ :=
    forTarget_smallest almostOne_rational (by norm_num) (by norm_num) hfit
  rw [hclamp] at hsmallest hfirst
  refine ⟨lf, hlf, hsmallest, hfirst, ?_⟩
  obtain rfl : _ = lf := Option.some.inj hlf
  decide

end Sizing

end LexBase
