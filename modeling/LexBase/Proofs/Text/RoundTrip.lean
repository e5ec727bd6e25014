import LexBase.Proofs.Text.Cut

/-!
# Texts there and back

The units of an encoded character are read as that character and leave nothing behind, so decoding undoes
encoding at either width. The other way round, words come back as they were but for the surrogates without
a partner: each of them comes back as the replacement character. The bytes of a text are those that `String`
itself is made of.
-/

namespace LexBase

set_option autoImplicit false

namespace Decoder

variable {α τ : Type} {d : Decoder α (Option τ)}

theorem yielded_cons (d : Decoder α (Option τ)) (s : Option τ) (a : α) (as : List α) :
    d.yielded s (a :: as) = (d.step s a).1 ++ d.yielded (d.step s a).2 as := rfl

theorem reached_cons (d : Decoder α (Option τ)) (s : Option τ) (a : α) (as : List α) :
    d.reached s (a :: as) = d.reached (d.step s a).2 as := rfl

/-- From a state, the units are read as one character and nothing is held back after them. -/
structure Spells (d : Decoder α (Option τ)) (s : Option τ) (as : List α) (c : Char) : Prop where
  yielded_eq : d.yielded s as = [c]
  reached_eq : d.reached s as = none

theorem spells_singleton {s : Option τ} {a : α} {c : Char} (h : d.step s a = ([c], none)) :
    d.Spells s [a] c := by
  constructor
  · rw [yielded_cons, h]
    rfl
  · rw [reached_cons, h]
    rfl

theorem Spells.cons {s s' : Option τ} {a : α} {as : List α} {c : Char} (h : d.Spells s' as c)
    (hstep : d.step s a = ([], s')) : d.Spells s (a :: as) c := by
  constructor
  · rw [yielded_cons, hstep]
    exact h.yielded_eq
  · rw [reached_cons, hstep]
    exact h.reached_eq

theorem Spells.run_append {s : Option τ} {as : List α} {c : Char} (h : d.Spells s as c)
    (bs : List α) : d.run s (as ++ bs) = c :: d.run none bs := by
  rw [Decoder.run_append, h.yielded_eq, h.reached_eq]
  rfl

theorem run_flatMap {e : Char → List α} (hend : d.finish none = [])
    (h : ∀ c, d.Spells none (e c) c) (cs : List Char) : d.run none (cs.flatMap e) = cs := by
  induction cs with
  | nil => exact hend
  | cons c cs ih => rw [List.flatMap_cons, (h c).run_append, ih]

end Decoder

/-- A value that a character can have: any up to the last one, but for the surrogates. -/
def IsScalar (n : Nat) : Prop := n < 0xd800 ∨ 0xe000 ≤ n ∧ n < 0x110000

theorem isScalar_toNat (c : Char) : IsScalar c.toNat := by
  have hvalid : c.toNat < 0xd800 ∨ 0xdfff < c.toNat ∧ c.toNat < 0x110000 := c.valid
  unfold IsScalar
  omega

theorem IsScalar.toNat_ofNat {n : Nat} (h : IsScalar n) : (Char.ofNat n).toNat = n := by
  have hvalid : n.isValidChar := h.imp_right fun hhigh => ⟨hhigh.1, hhigh.2⟩
  rw [Char.ofNat, dif_pos hvalid]
  rfl

namespace Utf8

def octet (n : Nat) : CodeUnit .byte := BitVec.ofNat 8 n

theorem toNat_octet {n : Nat} (h : n < 256) : (octet n).toNat = n := by
  change (BitVec.ofNat 8 n).toNat = n
  rw [BitVec.toNat_ofNat, Nat.mod_eq_of_lt h]

/-- The last `k` bytes of the encoded form of `n`. -/
def trail (n : Nat) : Nat → List (CodeUnit .byte)
  | 0 => []
  | k + 1 => octet (0x80 + n >>> (6 * k) % 64) :: trail n k

/-- All of `n` is read but its last `k + 1` groups of six bits, and the next of these is accepted. -/
structure Awaits (p : Pending) (n k : Nat) : Prop where
  missing_eq : p.missing = k + 1
  bits_eq : p.bits = n >>> (6 * (k + 1))
  low_le : p.low ≤ 0x80 + n >>> (6 * k) % 64
  le_high : 0x80 + n >>> (6 * k) % 64 ≤ p.high

theorem shiftRight_lead (n : Nat) : n >>> 6 = n / 64 ∧ n >>> 12 = n / 4096 ∧ n >>> 18 = n / 262144 :=
  ⟨Nat.shiftRight_eq_div_pow n 6, Nat.shiftRight_eq_div_pow n 12, Nat.shiftRight_eq_div_pow n 18⟩

theorem shiftRight_group (n k : Nat) :
    n >>> (6 * (k + 1)) * 64 + n >>> (6 * k) % 64 = n >>> (6 * k) := by
  have hshift : n >>> (6 * (k + 1)) = n >>> (6 * k) / 64 := by
    rw [show 6 * (k + 1) = 6 * k + 6 from rfl, Nat.shiftRight_add]
    exact Nat.shiftRight_eq_div_pow _ 6
  rw [hshift, Nat.div_add_mod']

theorem Awaits.step_eq {p : Pending} {n k : Nat} (h : Awaits p n k) :
    step (some p) (octet (0x80 + n >>> (6 * k) % 64)) =
      if k = 0 then ([Char.ofNat n], none) else ([], some ⟨k, 0x80, 0xbf, n >>> (6 * k)⟩) := by
  have hbits : p.bits * 64 + (0x80 + n >>> (6 * k) % 64 - 0x80) = n >>> (6 * k) := by
    rw [Nat.add_sub_cancel_left, h.bits_eq, shiftRight_group]
  unfold step
  simp only [toNat_octet (show 0x80 + n >>> (6 * k) % 64 < 256 by omega),
    if_pos (And.intro h.low_le h.le_high), hbits, h.missing_eq]
  cases k with
  | zero => rfl
  | succ k => rfl

theorem Awaits.spells {p : Pending} {n k : Nat} (h : Awaits p n k) :
    decoder.Spells (some p) (trail n (k + 1)) (Char.ofNat n) := by
  induction k generalizing p with
  | zero => exact Decoder.spells_singleton h.step_eq
  | succ k ih =>
    have hnext : Awaits ⟨k + 1, 0x80, 0xbf, n >>> (6 * (k + 1))⟩ n k :=
      ⟨rfl, rfl, Nat.le_add_right _ _, by change _ ≤ 0xbf; omega⟩
    exact (ih hnext).cons h.step_eq

theorem start_two {n : Nat} (hlow : 0x80 ≤ n) (hhigh : n < 0x800) :
    ∃ p, start (0xc0 + n >>> 6) = ([], some p) ∧ Awaits p n 0 := by
  have hlead : n >>> 6 = n / 64 := Nat.shiftRight_eq_div_pow n 6
  have hawaits : Awaits ⟨1, 0x80, 0xbf, n >>> 6⟩ n 0 :=
    ⟨rfl, rfl, Nat.le_add_right _ _, by change _ ≤ 0xbf; omega⟩
  refine ⟨_, ?_, hawaits⟩
  unfold start
  rw [if_neg (by omega), if_neg (by omega), if_pos (by omega), Nat.add_sub_cancel_left]

-- the second byte has a narrower range after a first byte of zero bits, and before the surrogates
theorem start_three {n : Nat} (hlow : 0x800 ≤ n) (hhigh : n < 0x10000)
    (hscalar : n < 0xd800 ∨ 0xe000 ≤ n) :
    ∃ p, start (0xe0 + n >>> 12) = ([], some p) ∧ Awaits p n 1 := by
  have hlead : n >>> 12 = n / 4096 := Nat.shiftRight_eq_div_pow n 12
  have hnext : n >>> (6 * 1) = n / 64 := Nat.shiftRight_eq_div_pow n 6
  unfold start
  rw [if_neg (by omega), if_neg (by omega), if_neg (by omega)]
  split
  · refine ⟨_, rfl, rfl, ?_, ?_, ?_⟩ <;> simp only [hnext] <;> omega
  split
  · refine ⟨_, rfl, rfl, ?_, ?_, ?_⟩ <;> simp only [hnext] <;> omega
  · rw [if_pos (by omega)]
    refine ⟨_, rfl, rfl, ?_, ?_, ?_⟩ <;> simp only [hnext] <;> omega

theorem start_four {n : Nat} (hlow : 0x10000 ≤ n) (hhigh : n < 0x110000) :
    ∃ p, start (0xf0 + n >>> 18) = ([], some p) ∧ Awaits p n 2 := by
  have hlead : n >>> 18 = n / 262144 := Nat.shiftRight_eq_div_pow n 18
  have hnext : n >>> (6 * 2) = n / 4096 := Nat.shiftRight_eq_div_pow n 12
  unfold start
  rw [if_neg (by omega), if_neg (by omega), if_neg (by omega), if_neg (by omega), if_neg (by omega),
    if_neg (by omega)]
  split
  · refine ⟨_, rfl, rfl, ?_, ?_, ?_⟩ <;> simp only [hnext] <;> omega
  split
  · refine ⟨_, rfl, rfl, ?_, ?_, ?_⟩ <;> simp only [hnext] <;> omega
  · rw [if_pos (by omega)]
    refine ⟨_, rfl, rfl, ?_, ?_, ?_⟩ <;> simp only [hnext] <;> omega

theorem spells_of_start {b n k : Nat} (hb : b < 256)
    (h : ∃ p, start b = ([], some p) ∧ Awaits p n k) :
    decoder.Spells none (octet b :: trail n (k + 1)) (Char.ofNat n) := by
  obtain ⟨p, hstart, hawaits⟩ := h
  refine hawaits.spells.cons ?_
  change start (octet b).toNat = _
  rw [toNat_octet hb, hstart]

theorem start_one {n : Nat} (h : n < 0x80) : start n = ([Char.ofNat n], none) := if_pos h

theorem encode_one {c : Char} (h : c.toNat < 0x80) : encode c = [octet (0 + c.toNat)] := if_pos h

theorem encode_two {c : Char} (hlow : 0x80 ≤ c.toNat) (hhigh : c.toNat < 0x800) :
    encode c = octet (0xc0 + c.toNat >>> 6) :: trail c.toNat 1 :=
  (if_neg (Nat.not_lt_of_le hlow)).trans (if_pos hhigh)

theorem encode_three {c : Char} (hlow : 0x800 ≤ c.toNat) (hhigh : c.toNat < 0x10000) :
    encode c = octet (0xe0 + c.toNat >>> 12) :: trail c.toNat 2 :=
  (if_neg (by omega)).trans ((if_neg (Nat.not_lt_of_le hlow)).trans (if_pos hhigh))

theorem encode_four {c : Char} (hlow : 0x10000 ≤ c.toNat) :
    encode c = octet (0xf0 + c.toNat >>> 18) :: trail c.toNat 3 :=
  (if_neg (by omega)).trans ((if_neg (by omega)).trans (if_neg (Nat.not_lt_of_le hlow)))

theorem spells_encode (c : Char) : decoder.Spells none (encode c) c := by
  have hscalar := isScalar_toNat c
  unfold IsScalar at hscalar
  obtain ⟨hlead₂, hlead₃, hlead₄⟩ := shiftRight_lead c.toNat
  suffices h : decoder.Spells none (encode c) (Char.ofNat c.toNat) by rwa [Char.ofNat_toNat] at h
  rcases Nat.lt_or_ge c.toNat 0x80 with hone | hone
  · rw [encode_one hone]
    refine Decoder.spells_singleton ?_
    change start (octet (0 + c.toNat)).toNat = _
    rw [Nat.zero_add, toNat_octet (by omega), start_one hone]
  rcases Nat.lt_or_ge c.toNat 0x800 with htwo | htwo
  · rw [encode_two hone htwo]
    exact spells_of_start (by omega) (start_two hone htwo)
  rcases Nat.lt_or_ge c.toNat 0x10000 with hthree | hthree
  · rw [encode_three htwo hthree]
    exact spells_of_start (by omega) (start_three htwo hthree (by omega))
  · rw [encode_four hthree]
    exact spells_of_start (by omega) (start_four hthree (by omega))

end Utf8

namespace Utf16

def word (n : Nat) : CodeUnit .word := BitVec.ofNat 16 n

theorem toNat_word {n : Nat} (h : n < 65536) : (word n).toNat = n := by
  change (BitVec.ofNat 16 n).toNat = n
  rw [BitVec.toNat_ofNat, Nat.mod_eq_of_lt h]

theorem word_toNat (u : CodeUnit .word) : word u.toNat = u := BitVec.ofNat_toNat 16 u

theorem encode_of_lt {c : Char} (h : c.toNat < 0x10000) : encode c = [word c.toNat] := if_pos h

theorem encode_of_le {c : Char} (h : 0x10000 ≤ c.toNat) :
    encode c = [word (0xd800 + (c.toNat - 0x10000) / 0x400),
      word (0xdc00 + (c.toNat - 0x10000) % 0x400)] :=
  if_neg (Nat.not_lt_of_le h)

theorem isHigh_iff {u : CodeUnit .word} : isHigh u = true ↔ 0xd800 ≤ u.toNat ∧ u.toNat < 0xdc00 := by
  simp [isHigh]

theorem isLow_iff {u : CodeUnit .word} : isLow u = true ↔ 0xdc00 ≤ u.toNat ∧ u.toNat < 0xe000 := by
  simp [isLow]

theorem start_of_isHigh {u : CodeUnit .word} (h : isHigh u = true) : start u = ([], some u) := if_pos h

theorem start_of_scalar {u : CodeUnit .word} (hhigh : ¬isHigh u = true) (hlow : ¬isLow u = true) :
    start u = ([Char.ofNat u.toNat], none) := by
  unfold start
  rw [if_neg hhigh, if_neg hlow]

def joined (h l : CodeUnit .word) : Nat := 0x10000 + (h.toNat - 0xd800) * 0x400 + (l.toNat - 0xdc00)

theorem step_pair (h : CodeUnit .word) {l : CodeUnit .word} (hlow : isLow l = true) :
    step (some h) l = ([Char.ofNat (joined h l)], none) := if_pos hlow

theorem spells_encode (c : Char) : decoder.Spells none (encode c) c := by
  have hscalar := isScalar_toNat c
  unfold IsScalar at hscalar
  suffices h : decoder.Spells none (encode c) (Char.ofNat c.toNat) by rwa [Char.ofNat_toNat] at h
  rcases Nat.lt_or_ge c.toNat 0x10000 with hone | htwo
  · have hunit := toNat_word hone
    rw [encode_of_lt hone]
    refine Decoder.spells_singleton ?_
    change start (word c.toNat) = _
    rw [start_of_scalar (by rw [isHigh_iff]; omega) (by rw [isLow_iff]; omega), hunit]
  · have hhigh := toNat_word (n := 0xd800 + (c.toNat - 0x10000) / 0x400) (by omega)
    have hlow := toNat_word (n := 0xdc00 + (c.toNat - 0x10000) % 0x400) (by omega)
    rw [encode_of_le htwo]
    generalize word (0xd800 + (c.toNat - 0x10000) / 0x400) = h at hhigh ⊢
    generalize word (0xdc00 + (c.toNat - 0x10000) % 0x400) = l at hlow ⊢
    have hjoined : joined h l = c.toNat := by
      unfold joined
      omega
    refine Decoder.Spells.cons ?_ (start_of_isHigh (isHigh_iff.mpr (by omega)))
    rw [← hjoined]
    exact Decoder.spells_singleton (step_pair h (isLow_iff.mpr (by omega)))

theorem encode_scalar {u : CodeUnit .word} (hhigh : ¬isHigh u = true) (hlow : ¬isLow u = true) :
    encode (Char.ofNat u.toNat) = [u] := by
  have hlt : u.toNat < 0x10000 := u.isLt
  rw [isHigh_iff] at hhigh
  rw [isLow_iff] at hlow
  have hn : (Char.ofNat u.toNat).toNat = u.toNat :=
    IsScalar.toNat_ofNat (by unfold IsScalar; omega)
  rw [encode_of_lt (by omega), hn, word_toNat]

theorem encode_pair {h l : CodeUnit .word} (hhigh : isHigh h = true) (hlow : isLow l = true) :
    encode (Char.ofNat (joined h l)) = [h, l] := by
  rw [isHigh_iff] at hhigh
  rw [isLow_iff] at hlow
  have hvalue : joined h l = 0x10000 + ((h.toNat - 0xd800) * 0x400 + (l.toNat - 0xdc00)) :=
    Nat.add_assoc _ _ _
  have hn : (Char.ofNat (joined h l)).toNat = joined h l :=
    IsScalar.toNat_ofNat (by unfold IsScalar; omega)
  have hfirst : 0xd800 + (joined h l - 0x10000) / 0x400 = h.toNat := by omega
  have hsecond : 0xdc00 + (joined h l - 0x10000) % 0x400 = l.toNat := by omega
  rw [encode_of_le (by omega), hn, hfirst, hsecond, word_toNat, word_toNat]

/-- A surrogate whose partner is not among these neighbours. -/
def Lone (before : Option (CodeUnit .word)) (u : CodeUnit .word) (after : Option (CodeUnit .word)) :
    Prop :=
  isHigh u = true ∧ after.any isLow = false ∨ isLow u = true ∧ before.any isHigh = false

instance (before : Option (CodeUnit .word)) (u : CodeUnit .word) (after : Option (CodeUnit .word)) :
    Decidable (Lone before u after) :=
  inferInstanceAs (Decidable (_ ∧ _ ∨ _ ∧ _))

/-- What comes back for a unit between these neighbours. -/
def mended (before : Option (CodeUnit .word)) (u : CodeUnit .word) (after : Option (CodeUnit .word)) :
    CodeUnit .word :=
  if Lone before u after then word 0xfffd else u

/-- What comes back for the units after a given one. -/
def mend : Option (CodeUnit .word) → List (CodeUnit .word) → List (CodeUnit .word)
  | _, [] => []
  | before, u :: us => mended before u us.head? :: mend (some u) us

/-- What comes back for a unit held back, once the next one is known. -/
def owed : State → Option (CodeUnit .word) → List (CodeUnit .word)
  | none, _ => []
  | some h, after => [mended none h after]

section Mended

variable {before after : Option (CodeUnit .word)} {u : CodeUnit .word}

theorem mended_of_isHigh (h : isHigh u = true) :
    mended before u after = if after.any isLow = false then word 0xfffd else u := by
  have hlow : ¬isLow u = true := fun hl => Bool.false_ne_true ((isHigh_of_isLow hl).symm.trans h)
  simp only [mended, Lone, h, hlow, Bool.false_eq_true, true_and, false_and, or_false]

theorem mended_of_isLow (h : isLow u = true) :
    mended before u after = if before.any isHigh = false then word 0xfffd else u := by
  simp only [mended, Lone, isHigh_of_isLow h, h, Bool.false_eq_true, true_and, false_and, false_or]

theorem mended_of_scalar (hhigh : ¬isHigh u = true) (hlow : ¬isLow u = true) :
    mended before u after = u := by
  simp only [mended, Lone, hhigh, hlow, Bool.false_eq_true, false_and, or_false, if_false]

theorem encode_start (h : isLow u = true → before.any isHigh = false) :
    (start u).1.flatMap encode ++ owed (start u).2 after = [mended before u after] := by
  by_cases hhigh : isHigh u = true
  · have howed : owed (some u) after = [mended before u after] := by
      rw [owed, mended_of_isHigh hhigh, mended_of_isHigh hhigh]
    rw [start_of_isHigh hhigh]
    exact howed
  by_cases hlow : isLow u = true
  · rw [start_of_isLow hlow, mended_of_isLow hlow, if_pos (h hlow)]
    rfl
  · rw [start_of_scalar hhigh hlow, mended_of_scalar hhigh hlow, List.flatMap_singleton,
      encode_scalar hhigh hlow]
    rfl

theorem encode_step_held {h : CodeUnit .word} (hh : isHigh h = true) :
    (step (some h) u).1.flatMap encode ++ owed (step (some h) u).2 after =
      owed (some h) (some u) ++ [mended (some h) u after] := by
  by_cases hlow : isLow u = true
  · have hsome : (some h).any isHigh = true := hh
    have hnext : (some u).any isLow = true := hlow
    rw [step_pair h hlow, List.flatMap_singleton, encode_pair hh hlow, mended_of_isLow hlow, owed,
      owed, mended_of_isHigh hh, hsome, hnext]
    rfl
  · have hnext : (some u).any isLow = false := Bool.eq_false_iff.mpr hlow
    have hstep : step (some h) u = (replacement :: (start u).1, (start u).2) := if_neg hlow
    have hstart : (start u).1.flatMap encode ++ owed (start u).2 after = [mended (some h) u after] :=
      encode_start (absurd · hlow)
    rw [hstep, List.flatMap_cons, List.append_assoc, hstart, owed, mended_of_isHigh hh, if_pos hnext]
    rfl

theorem encode_step (before after : Option (CodeUnit .word)) (u : CodeUnit .word) :
    (step (before.filter isHigh) u).1.flatMap encode ++ owed (step (before.filter isHigh) u).2 after =
      owed (before.filter isHigh) (some u) ++ [mended before u after] := by
  cases before with
  | none => exact encode_start fun _ => rfl
  | some b =>
    by_cases hb : isHigh b = true
    · rw [Option.filter_some_pos hb]
      exact encode_step_held hb
    · have hnot : isHigh b = false := Bool.eq_false_iff.mpr hb
      rw [Option.filter_some_neg hnot]
      exact encode_start fun _ => hnot

end Mended

theorem encode_finish (before : Option (CodeUnit .word)) :
    (finish (before.filter isHigh)).flatMap encode = owed (before.filter isHigh) none := by
  cases hs : before.filter isHigh with
  | none => rfl
  | some h =>
    rw [owed, mended_of_isHigh (Option.filter_eq_some_iff.mp hs).2]
    rfl

theorem encode_run (before : Option (CodeUnit .word)) (us : List (CodeUnit .word)) :
    (decoder.run (before.filter isHigh) us).flatMap encode =
      owed (before.filter isHigh) us.head? ++ mend before us := by
  induction us generalizing before with
  | nil =>
    rw [Decoder.run_nil, mend, List.append_nil]
    exact encode_finish before
  | cons u us ih =>
    have hstep := encode_step before us.head? u
    have hstate : (step (before.filter isHigh) u).2 = (some u).filter isHigh := step_snd _ u
    rw [hstate] at hstep
    rw [Decoder.run_cons, List.flatMap_append]
    change _ ++ (decoder.run (step _ u).2 us).flatMap encode = _
    rw [hstate, ih, ← List.append_assoc]
    change (step _ u).1.flatMap encode ++ _ ++ _ = _
    rw [hstep, List.append_assoc]
    rfl

def unitBefore (before : Option (CodeUnit .word)) (us : List (CodeUnit .word)) :
    Nat → Option (CodeUnit .word)
  | 0 => before
  | i + 1 => us[i]?

theorem length_mend (before : Option (CodeUnit .word)) (us : List (CodeUnit .word)) :
    (mend before us).length = us.length := by
  induction us generalizing before with
  | nil => rfl
  | cons u us ih => rw [mend, List.length_cons, ih, List.length_cons]

theorem getElem?_mend (before : Option (CodeUnit .word)) (us : List (CodeUnit .word)) (i : Nat) :
    (mend before us)[i]? = us[i]?.map fun u => mended (unitBefore before us i) u us[i + 1]? := by
  induction us generalizing before i with
  | nil => rfl
  | cons u us ih =>
    cases i with
    | zero =>
      rw [mend, List.head?_eq_getElem?]
      rfl
    | succ i =>
      rw [mend, List.getElem?_cons_succ, ih]
      cases i <;> rfl

/-- The unit at an index is a surrogate without its partner beside it. -/
def Unpaired (us : List (CodeUnit .word)) (i : Nat) : Prop :=
  ∃ u, us[i]? = some u ∧ Lone (unitBefore none us i) u us[i + 1]?

/-- The units again, but for the surrogates without a partner. -/
structure Mends (us back : List (CodeUnit .word)) : Prop where
  length_eq : back.length = us.length
  kept : ∀ i, ¬Unpaired us i → back[i]? = us[i]?
  replaced : ∀ i, Unpaired us i → back[i]? = some (word 0xfffd)

theorem mends (us : List (CodeUnit .word)) : Mends us (encodeText .word (decodeText us)) := by
  have hmend : encodeText .word (decodeText us) = mend none us := by
    unfold encodeText decodeText
    rw [String.toList_ofList]
    exact encode_run none us
  rw [hmend]
  refine ⟨length_mend none us, ?_, ?_⟩
  · intro i hpaired
    rw [getElem?_mend]
    cases hu : us[i]? with
    | none => rfl
    | some u =>
      have hlone : ¬Lone (unitBefore none us i) u us[i + 1]? := fun h => hpaired ⟨u, hu, h⟩
      rw [Option.map_some, mended, if_neg hlone]
  · rintro i ⟨u, hu, hlone⟩
    rw [getElem?_mend, hu, Option.map_some, mended, if_pos hlone]

/-- The replacement character is no surrogate, so it shows. -/
theorem Mends.eq_iff {us back : List (CodeUnit .word)} (h : Mends us back) :
    back = us ↔ ∀ i, ¬Unpaired us i := by
  constructor
  · rintro rfl i hunpaired
    obtain ⟨u, hu, hlone⟩ := hunpaired
    have hword := (h.replaced i ⟨u, hu, hlone⟩).symm.trans hu
    obtain rfl := Option.some.inj hword
    rcases hlone with ⟨hhigh, _⟩ | ⟨hlow, _⟩
    · exact absurd hhigh (by decide)
    · exact absurd hlow (by decide)
  · intro hpaired
    exact List.ext_getElem? fun i => h.kept i (hpaired i)

end Utf16

theorem decode_encode {w : Width} (cs : List Char) : decode w (encode w cs) = cs := by
  cases w with
  | byte => exact Decoder.run_flatMap rfl Utf8.spells_encode cs
  | word => exact Decoder.run_flatMap rfl Utf16.spells_encode cs

theorem decodeText_encodeText {w : Width} (s : String) : decodeText (encodeText w s) = s := by
  unfold decodeText encodeText
  rw [decode_encode, String.ofList_toList]

/-- Whatever the units are, their text is read again from the units it is written with, and only units that
a text is written with come back as they were. -/
structure Restores (w : Width) : Prop where
  undone : ∀ s, decodeText (encodeText w s) = s
  settled : ∀ us : List (CodeUnit w), decodeText (encodeText w (decodeText us)) = decodeText us
  unchanged_iff : ∀ us : List (CodeUnit w),
    encodeText w (decodeText us) = us ↔ ∃ s, encodeText w s = us

theorem restores (w : Width) : Restores w := by
  refine ⟨decodeText_encodeText, fun us => decodeText_encodeText _, ?_⟩
  intro us
  constructor
  · intro h
    exact ⟨decodeText us, h⟩
  · rintro ⟨s, rfl⟩
    rw [decodeText_encodeText]

namespace Utf8

theorem octet_cons {m n : Nat} {bs : List (CodeUnit .byte)} {bytes : List UInt8} (h : m = n)
    (hrest : bs = bytes.map UInt8.toBitVec) :
    octet m :: bs = (UInt8.ofNat n :: bytes).map UInt8.toBitVec := by
  rw [h, hrest]
  rfl

theorem group_eq (n k : Nat) : 0x80 + n >>> (6 * k) % 64 = n / Nat.pow 2 (6 * k) % 64 + 0x80 := by
  rw [Nat.shiftRight_eq_div_pow, Nat.add_comm]
  rfl

/-- The bytes of a character are those it has in a `String`. -/
theorem encode_eq (c : Char) : encode c = (String.utf8EncodeChar c).map UInt8.toBitVec := by
  have hscalar := isScalar_toNat c
  unfold IsScalar at hscalar
  have hval : c.val.toNat = c.toNat := rfl
  obtain ⟨hlead₂, hlead₃, hlead₄⟩ := shiftRight_lead c.toNat
  have hlast : [octet (0x80 + c.toNat % 64)] =
      [UInt8.ofNat (c.toNat % 64 + 0x80)].map UInt8.toBitVec := octet_cons (Nat.add_comm _ _) rfl
  simp only [String.utf8EncodeChar, hval]
  split
  · rw [encode_one (by omega)]
    exact octet_cons (Nat.zero_add _) rfl
  split
  · rw [encode_two (by omega) (by omega)]
    exact octet_cons (by omega) hlast
  split
  · rw [encode_three (by omega) (by omega)]
    exact octet_cons (by omega) (octet_cons (group_eq _ 1) hlast)
  · rw [encode_four (by omega)]
    exact octet_cons (by omega) (octet_cons (group_eq _ 2) (octet_cons (group_eq _ 1) hlast))

end Utf8

theorem encodeText_byte (s : String) :
    encodeText .byte s = s.toByteArray.data.toList.map UInt8.toBitVec := by
  rw [← String.utf8Encode_toList]
  unfold encodeText List.utf8Encode
  rw [List.toList_data_toByteArray, List.map_flatMap, ← funext Utf8.encode_eq]
  rfl

/-- Decoding undoes encoding at either width; words come back but for the surrogates without a partner,
so these alone keep words from being a text; and the bytes of a text are those of its `String`. -/
theorem texts_return :
    (∀ w, Restores w) ∧
      (∀ us, Utf16.Mends us (encodeText .word (decodeText us))) ∧
      (∀ us, (∃ s, encodeText .word s = us) ↔ ∀ i, ¬Utf16.Unpaired us i) ∧
      ∀ s, encodeText .byte s = s.toByteArray.data.toList.map UInt8.toBitVec := by
  refine ⟨restores, Utf16.mends, ?_, encodeText_byte⟩
  intro us
  rw [← (restores .word).unchanged_iff us]
  exact (Utf16.mends us).eq_iff

/-- Of two high surrogates before a low one the first has no partner. -/
example : encode .word (decode .word [0xd83d, 0xd83d, 0xde00]) = [0xfffd, 0xd83d, 0xde00] := by decide

end LexBase
