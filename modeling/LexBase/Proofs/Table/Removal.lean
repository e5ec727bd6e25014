import LexBase.Proofs.Table.Insert

/-!
# Closing a gap

Seen from a start just past a vacant slot, a table is a row: no probe path crosses the end of the
row, so the home of an entry never lies ahead of it. The loop that closes a gap keeps a row that
is whole but for one hole: a path may cross the hole only if it leads to a slot that the loop has
not looked at yet. When the loop meets a vacant slot nothing crosses the hole any more, and the
table is valid again.
-/

namespace LexBase

set_option autoImplicit false

variable {w : Width} {V : Type}

namespace Table

variable {t t' : Table w V} {start hole i k : Nat} {e : Entry w V}

/-- A tour from `start` ends at a vacant slot. -/
structure Based (t : Table w V) (start : Nat) : Prop where
  start_lt : start < t.length
  last_vacant : t.onward? start (t.length - 1) = none

def homeOffset (t : Table w V) (start : Nat) (e : Entry w V) : Nat :=
  distance t.length start (home t.length e.key)

/-- Each entry is reached from its home without crossing the end of the tour. -/
def Unbroken (t : Table w V) (start : Nat) : Prop :=
  ∀ p e, p < t.length → t.onward? start p = some e →
    t.homeOffset start e ≤ p ∧ ∀ q, t.homeOffset start e ≤ q → q < p → (t.onward? start q).isSome

theorem Based.lt_last (hb : t.Based start) {p : Nat} (hp : p < t.length)
    (he : t.onward? start p = some e) : p < t.length - 1 := by
  by_contra hn
  have heq : p = t.length - 1 := by omega
  rw [heq, hb.last_vacant] at he
  simp at he

theorem based_past_vacant {v : Nat} (hv : v < t.length) (hnone : t.slot? v = none) :
    t.Based ((v + 1) % t.length) := by
  refine ⟨Nat.mod_lt _ (by omega), ?_⟩
  have hback : v + (1 + (t.length - 1)) = v + t.length := by omega
  rw [onward?, add_offset, hback, Nat.add_mod_right, Nat.mod_eq_of_lt hv]
  exact hnone

theorem HasVacancy.based (h : t.HasVacancy) : ∃ start, t.Based start := by
  obtain ⟨v, hv, hnone⟩ := h
  exact ⟨_, based_past_vacant hv hnone⟩

/-- The path of an entry from a home at a lower offset meets every slot in between. -/
theorem Reaches.onward {p q : Nat} (hs : start < t.length) (hp : p < t.length)
    (hr : t.Reaches e.key ((start + p) % t.length)) (hle : t.homeOffset start e ≤ q) (hq : q < p) :
    (t.onward? start q).isSome := by
  have hhome : (start + t.homeOffset start e) % t.length = home t.length e.key :=
    add_distance hs (home_lt (by omega))
  have hd : distance t.length (home t.length e.key) ((start + p) % t.length) =
      p - t.homeOffset start e := by
    rw [← hhome, distance_offsets hs (by omega) hp, if_pos (by omega)]
  have hstep := hr (q - t.homeOffset start e) (by omega)
  rwa [onward?, ← hhome, add_offset, Nat.add_sub_cancel' hle] at hstep

section Row

variable (hb : t.Based start)
include hb

theorem Based.add_homeOffset (e : Entry w V) :
    (start + t.homeOffset start e) % t.length = home t.length e.key :=
  add_distance hb.start_lt (home_lt (by have := hb.start_lt; omega))

theorem Based.homeOffset_lt (e : Entry w V) : t.homeOffset start e < t.length :=
  distance_lt (by have := hb.start_lt; omega)

theorem Based.distance_home {p : Nat} (hp : p < t.length) (e : Entry w V) :
    distance t.length (home t.length e.key) ((start + p) % t.length) =
      if t.homeOffset start e ≤ p then p - t.homeOffset start e
      else p + t.length - t.homeOffset start e := by
  rw [← hb.add_homeOffset e]
  exact distance_offsets hb.start_lt (hb.homeOffset_lt e) hp

theorem Based.onward?_home (e : Entry w V) (j : Nat) :
    t.onward? (home t.length e.key) j = t.onward? start (t.homeOffset start e + j) := by
  rw [onward?, ← hb.add_homeOffset e, add_offset, onward?]

theorem Based.unbroken (hreach : ∀ i e, t.slot? i = some e → t.Reaches e.key i) :
    t.Unbroken start := by
  intro p e hp he
  have hpath := hreach _ e he
  refine ⟨?_, fun q hq hqp => hpath.onward hb.start_lt hp hq hqp⟩
  by_contra hn
  unfold Reaches at hpath
  rw [hb.distance_home hp, if_neg hn] at hpath
  have hlt := hb.homeOffset_lt e
  have hend := hpath (t.length - 1 - t.homeOffset start e) (by omega)
  have hsum : t.homeOffset start e + (t.length - 1 - t.homeOffset start e) = t.length - 1 := by
    omega
  rw [hb.onward?_home, hsum, hb.last_vacant] at hend
  simp at hend

theorem Based.reaches (hu : t.Unbroken start) {i : Nat} (he : t.slot? i = some e) :
    t.Reaches e.key i := by
  have hi := lt_length_of_slot? he
  have hp := distance_lt (a := start) (b := i) (by omega : 0 < t.length)
  have hat : (start + distance t.length start i) % t.length = i := add_distance hb.start_lt hi
  obtain ⟨hle, hpath⟩ := hu _ e hp (by rw [onward?, hat, he])
  intro j hj
  rw [← hat, hb.distance_home hp, if_pos hle] at hj
  rw [hb.onward?_home]
  exact hpath _ (by omega) (by omega)

end Row

/-- A row with one hole. The loop has looked at the offsets before `i`. -/
structure Gap (t : Table w V) (start hole i : Nat) : Prop where
  aligned : t.Aligned
  based : t.Based start
  hole_lt : hole < i
  lt_length : i < t.length
  hole_vacant : t.onward? start hole = none
  home_le : ∀ p e, p < t.length → t.onward? start p = some e → t.homeOffset start e ≤ p
  path : ∀ p e, p < t.length → t.onward? start p = some e →
    ∀ q, t.homeOffset start e ≤ q → q < p → q ≠ hole → (t.onward? start q).isSome
  crossing : ∀ p e, p < t.length → t.onward? start p = some e →
    t.homeOffset start e ≤ hole → hole < p → i ≤ p

theorem onward?_vacate {p q : Nat} (hs : start < t.length) (hp : p < t.length) (hq : q < t.length) :
    (t.vacate ((start + p) % t.length)).onward? start q =
      if p = q then none else t.onward? start q := by
  rw [onward?, length_vacate, slot?_vacate (Nat.mod_lt _ (by omega)), onward?]
  simp only [offset_inj hs hp hq]

/-- Moves the entry at offset `i` to the hole. -/
def pull (t : Table w V) (start hole i : Nat) : Table w V :=
  t.shift ((start + hole) % t.length) ((start + i) % t.length)

@[simp] theorem length_pull (t : Table w V) (start hole i : Nat) :
    (t.pull start hole i).length = t.length := length_shift t _ _

theorem onward?_pull {q : Nat} (ha : t.Aligned) (hs : start < t.length) (hh : hole < t.length)
    (hi : i < t.length) (hq : q < t.length) (he : t.onward? start i = some e) :
    (t.pull start hole i).onward? start q =
      if i = q then none else if hole = q then some e else t.onward? start q := by
  have hlt : (start + hole) % t.length < t.length := Nat.mod_lt _ (by omega)
  rw [onward?, length_pull, pull, slot?_shift ha hlt he, onward?]
  simp only [offset_inj hs hi hq, offset_inj hs hh hq]

@[simp] theorem homeOffset_pull (e : Entry w V) :
    (t.pull start hole i).homeOffset start e = t.homeOffset start e := by
  simp [homeOffset]

namespace Gap

theorem succ_lt (h : t.Gap start hole i) (he : t.onward? start i = some e) : i + 1 < t.length := by
  have := h.based.lt_last h.lt_length he
  omega

theorem stay (h : t.Gap start hole i) (he : t.onward? start i = some e)
    (hhome : hole < t.homeOffset start e) : t.Gap start hole (i + 1) where
  aligned := h.aligned
  based := h.based
  hole_lt := Nat.lt_succ_of_lt h.hole_lt
  lt_length := h.succ_lt he
  hole_vacant := h.hole_vacant
  home_le := h.home_le
  path := h.path
  crossing p e' hp he' hle hlt := by
    have hip := h.crossing p e' hp he' hle hlt
    by_contra hn
    obtain rfl : p = i := by omega
    obtain rfl := Option.some.inj (he.symm.trans he')
    omega

theorem move (h : t.Gap start hole i) (he : t.onward? start i = some e)
    (hhome : t.homeOffset start e ≤ hole) : (t.pull start hole i).Gap start i (i + 1) := by
  have hs := h.based.start_lt
  have hi := h.lt_length
  have hh : hole < t.length := Nat.lt_trans h.hole_lt hi
  have hlast := h.based.lt_last hi he
  have hat : ∀ q, q < t.length → (t.pull start hole i).onward? start q =
      if i = q then none else if hole = q then some e else t.onward? start q :=
    fun q hq => onward?_pull h.aligned hs hh hi hq he
  have hcases : ∀ p e', p < t.length → (t.pull start hole i).onward? start p = some e' →
      (p = hole ∧ e' = e) ∨ (p ≠ i ∧ p ≠ hole ∧ t.onward? start p = some e') := by
    intro p e' hp he'
    rw [hat p hp] at he'
    split at he'
    · simp at he'
    · split at he'
      · exact Or.inl ⟨by omega, (Option.some.inj he').symm⟩
      · exact Or.inr ⟨by omega, by omega, he'⟩
  constructor
  · exact h.aligned.shift he _
  · refine ⟨by simpa using hs, ?_⟩
    rw [length_pull, hat _ (by omega), if_neg (by omega), if_neg (by have := h.hole_lt; omega)]
    exact h.based.last_vacant
  · omega
  · simpa using h.succ_lt he
  · rw [hat i hi, if_pos rfl]
  · intro p e' hp he'
    rw [length_pull] at hp
    rw [homeOffset_pull]
    rcases hcases p e' hp he' with ⟨rfl, rfl⟩ | ⟨_, _, hold⟩
    · exact hhome
    · exact h.home_le p e' hp hold
  · intro p e' hp he' q hq hqp hqi
    rw [length_pull] at hp
    rw [homeOffset_pull] at hq
    rw [hat q (by omega), if_neg (by omega)]
    split
    · rfl
    · rcases hcases p e' hp he' with ⟨rfl, rfl⟩ | ⟨_, _, hold⟩
      · exact h.path i e' hi he q hq (by have := h.hole_lt; omega) (by omega)
      · exact h.path p e' hp hold q hq hqp (by omega)
  · intro p e' hp he' _ hlt
    omega

/-- When the loop meets a vacant slot, a path across the hole would have to cross that slot too. -/
theorem unbroken (h : t.Gap start hole i) (hi : t.onward? start i = none) : t.Unbroken start := by
  intro p e hp he
  refine ⟨h.home_le p e hp he, ?_⟩
  intro q hq hqp
  apply h.path p e hp he q hq hqp
  rintro rfl
  have hip := h.crossing p e hp he hq hqp
  have hne : p ≠ i := by
    rintro rfl
    simp [hi] at he
  have hs := h.path p e hp he i (by have := h.hole_lt; omega) (by omega)
    (by have := h.hole_lt; omega)
  simp [hi] at hs

theorem distance_le_iff (h : t.Gap start hole i) (he : t.onward? start i = some e) :
    distance t.length ((start + hole) % t.length) ((start + i) % t.length) ≤
        distance t.length (home t.length e.key) ((start + i) % t.length) ↔
      t.homeOffset start e ≤ hole := by
  have hi := h.lt_length
  have hlt := h.hole_lt
  have hle := h.home_le i e hi he
  rw [h.based.distance_home hi, if_pos hle,
    distance_offsets h.based.start_lt (by omega) hi, if_pos (by omega)]
  omega

end Gap

/-- A run of the loop that closes a gap, with no bound on its length: it looks at `n` held slots
and then stops at a vacant one. It reads and writes inside the table only. -/
inductive GapRun : Nat → Table w V → Nat → Nat → Nat → Table w V × Nat → Prop where
  | stop {t : Table w V} {hole i shifted : Nat} : i < t.length → t.key i = .null w →
      GapRun 0 t hole i shifted (t, shifted)
  | stay {n hole i shifted : Nat} {t : Table w V} {r : Table w V × Nat} :
      i < t.length → t.key i ≠ .null w →
      distance t.length (home t.length (t.key i)) i < distance t.length hole i →
      GapRun n t hole ((i + 1) % t.length) shifted r → GapRun (n + 1) t hole i shifted r
  | move {n hole i shifted : Nat} {t : Table w V} {r : Table w V × Nat} :
      hole < t.length → i < t.length → t.key i ≠ .null w →
      distance t.length hole i ≤ distance t.length (home t.length (t.key i)) i →
      GapRun n (t.shift hole i) i ((i + 1) % t.length) (shifted + 1) r →
      GapRun (n + 1) t hole i shifted r

theorem GapRun.closeGap_eq {n steps hole i shifted : Nat} {t : Table w V} {r : Table w V × Nat}
    (h : GapRun n t hole i shifted r) (hn : n < steps) : closeGap steps t hole i shifted = r := by
  induction h generalizing steps with
  | stop _ hnull =>
    obtain ⟨s, rfl⟩ := Nat.exists_eq_succ_of_ne_zero (by omega : steps ≠ 0)
    simp only [closeGap, (CodeUnit.isNull_iff _).mpr hnull, if_true]
  | stay _ hkey hlt _ ih =>
    obtain ⟨s, rfl⟩ := Nat.exists_eq_succ_of_ne_zero (by omega : steps ≠ 0)
    simp only [closeGap]
    rw [if_neg fun h => hkey ((CodeUnit.isNull_iff _).mp h), if_neg (Nat.not_le_of_lt hlt)]
    exact ih (by omega)
  | move _ _ hkey hle _ ih =>
    obtain ⟨s, rfl⟩ := Nat.exists_eq_succ_of_ne_zero (by omega : steps ≠ 0)
    simp only [closeGap]
    rw [if_neg fun h => hkey ((CodeUnit.isNull_iff _).mp h), if_pos hle]
    exact ih (by omega)

/-- The same run by offsets, from a row with a hole to the row that it leaves in `k` moves. -/
inductive Closes (start : Nat) : Table w V → Nat → Nat → Table w V → Nat → Prop where
  | stop {t : Table w V} {hole i : Nat} : t.onward? start i = none → Closes start t hole i t 0
  | stay {t t' : Table w V} {hole i k : Nat} {e : Entry w V} : t.onward? start i = some e →
      hole < t.homeOffset start e → Closes start t hole (i + 1) t' k → Closes start t hole i t' k
  | move {t t' : Table w V} {hole i k : Nat} {e : Entry w V} : t.onward? start i = some e →
      t.homeOffset start e ≤ hole → Closes start (t.pull start hole i) i (i + 1) t' k →
      Closes start t hole i t' (k + 1)

namespace Closes

/-- The loop ends at the latest at the last slot of the row, which is vacant. -/
theorem exists_of_gap (h : t.Gap start hole i) : ∃ t' k, Closes start t hole i t' k := by
  generalize hd : t.length - i = d
  induction d generalizing t hole i with
  | zero =>
    have := h.lt_length
    omega
  | succ d ih =>
    cases he : t.onward? start i with
    | none => exact ⟨t, 0, .stop he⟩
    | some e =>
      by_cases hhome : t.homeOffset start e ≤ hole
      · obtain ⟨t', k, hc⟩ := ih (h.move he hhome) (by rw [length_pull]; omega)
        exact ⟨t', k + 1, .move he hhome hc⟩
      · obtain ⟨t', k, hc⟩ := ih (h.stay he (by omega)) (by omega)
        exact ⟨t', k, .stay he (by omega) hc⟩

theorem gapRun (hc : Closes start t hole i t' k) (h : t.Gap start hole i) (shifted : Nat) :
    ∃ n, n + i < t.length ∧ GapRun n t ((start + hole) % t.length) ((start + i) % t.length)
      shifted (t', shifted + k) := by
  have hin : ∀ {u : Table w V}, u.Based start → ∀ q, (start + q) % u.length < u.length :=
    fun hb q => Nat.mod_lt _ (Nat.zero_lt_of_lt hb.start_lt)
  induction hc generalizing shifted with
  | @stop t hole i he =>
    have hnull := h.aligned.slot?_eq_none_iff.mp he
    exact ⟨0, by have := h.lt_length; omega, .stop (hin h.based i) hnull⟩
  | @stay t t' hole i k e he hhome _ ih =>
    obtain ⟨n, hn, hrun⟩ := ih (h.stay he hhome) shifted
    rw [← add_offset] at hrun
    have htest := h.distance_le_iff he
    have hlt := Nat.lt_of_not_le fun hle => Nat.not_le_of_lt hhome (htest.mp hle)
    have hkey := key_of_slot? he
    exact ⟨n + 1, by omega,
      .stay (hin h.based i) (hkey ▸ nonnull_of_slot? he) (by rwa [hkey]) hrun⟩
  | @move t t' hole i k e he hhome _ ih =>
    obtain ⟨n, hn, hrun⟩ := ih (h.move he hhome) (shifted + 1)
    rw [length_pull] at hn
    rw [length_pull, ← add_offset, Nat.add_assoc, Nat.add_comm 1 k] at hrun
    have hle := (h.distance_le_iff he).mpr hhome
    have hkey := key_of_slot? he
    exact ⟨n + 1, by omega, .move (hin h.based hole) (hin h.based i) (hkey ▸ nonnull_of_slot? he)
      (by rwa [hkey]) hrun⟩

theorem length_eq (hc : Closes start t hole i t' k) : t'.length = t.length := by
  induction hc with
  | stop _ => rfl
  | stay _ _ _ ih => exact ih
  | move _ _ _ ih => rw [ih, length_pull]

theorem count_eq (hc : Closes start t hole i t' k) : t'.count = t.count := by
  induction hc with
  | stop _ => rfl
  | stay _ _ _ ih => exact ih
  | move _ _ _ ih => exact ih

theorem aligned (hc : Closes start t hole i t' k) (h : t.Gap start hole i) : t'.Aligned := by
  induction hc with
  | stop _ => exact h.aligned
  | stay he hhome _ ih => exact ih (h.stay he hhome)
  | move he hhome _ ih => exact ih (h.move he hhome)

theorem entries_perm (hc : Closes start t hole i t' k) (h : t.Gap start hole i) :
    t'.entries.Perm t.entries := by
  induction hc with
  | stop _ => exact .refl _
  | stay he hhome _ ih => exact ih (h.stay he hhome)
  | move he hhome _ ih =>
    refine (ih (h.move he hhome)).trans (entries_shift h.aligned ?_ h.hole_vacant he)
    exact Nat.mod_lt _ (by have := h.lt_length; omega)

theorem based (hc : Closes start t hole i t' k) (h : t.Gap start hole i) : t'.Based start := by
  induction hc with
  | stop _ => exact h.based
  | stay he hhome _ ih => exact ih (h.stay he hhome)
  | move he hhome _ ih => exact ih (h.move he hhome)

theorem unbroken (hc : Closes start t hole i t' k) (h : t.Gap start hole i) :
    t'.Unbroken start := by
  induction hc with
  | stop he => exact h.unbroken he
  | stay he hhome _ ih => exact ih (h.stay he hhome)
  | move he hhome _ ih => exact ih (h.move he hhome)

theorem agree (hc : Closes start t hole i t' k) (h : t.Gap start hole i) {q : Nat} (hq : q < hole) :
    t'.onward? start q = t.onward? start q := by
  induction hc with
  | stop _ => rfl
  | stay he hhome _ ih => exact ih (h.stay he hhome) hq
  | @move t t' hole i k e he hhome _ ih =>
    have hlt := h.hole_lt
    have hi := h.lt_length
    rw [ih (h.move he hhome) (by omega), onward?_pull h.aligned h.based.start_lt (by omega) hi (by omega) he,
      if_neg (by omega), if_neg (by omega)]

end Closes

/-- The table that a removal at offset `p` of a tour leaves. -/
structure Vacated (t : Table w V) (start p : Nat) (e : Entry w V) (t' : Table w V) : Prop where
  valid : t'.Valid
  based : t'.Based start
  length_eq : t'.length = t.length
  perm : t.entries.Perm (e :: t'.entries)
  agree : ∀ q, q < p → t'.onward? start q = t.onward? start q

@[simp] theorem length_take (t : Table w V) (i : Nat) : (t.take i).length = t.length :=
  length_vacate t i

theorem slot?_take (hi : i < t.length) (j : Nat) :
    (t.take i).slot? j = if i = j then none else t.slot? j :=
  slot?_vacate hi j

theorem onward?_take {p q : Nat} (hs : start < t.length) (hp : p < t.length) (hq : q < t.length) :
    (t.take ((start + p) % t.length)).onward? start q =
      if p = q then none else t.onward? start q :=
  onward?_vacate hs hp hq

theorem Unbroken.gap (hu : t.Unbroken start) (ha : t.Aligned) (hb : t.Based start) {p : Nat}
    (hp : p < t.length) (he : t.onward? start p = some e) :
    (t.take ((start + p) % t.length)).Gap start p (p + 1) := by
  have hlast := hb.lt_last hp he
  have hat : ∀ q, q < t.length → (t.take ((start + p) % t.length)).onward? start q =
      if p = q then none else t.onward? start q := fun q hq => onward?_take hb.start_lt hp hq
  have hold : ∀ q e', q < t.length →
      (t.take ((start + p) % t.length)).onward? start q = some e' →
      q ≠ p ∧ t.onward? start q = some e' := by
    intro q e' hq he'
    rw [hat q hq] at he'
    split at he'
    · simp at he'
    · exact ⟨by omega, he'⟩
  have hhome : ∀ e', (t.take ((start + p) % t.length)).homeOffset start e' =
      t.homeOffset start e' := fun e' => by simp [homeOffset]
  constructor
  · have hvacated := ha.vacate ((start + p) % t.length)
    exact ⟨hvacated.size_eq, hvacated.none_iff⟩
  · refine ⟨by simpa using hb.start_lt, ?_⟩
    rw [length_take, hat _ (by omega), if_neg (by omega)]
    exact hb.last_vacant
  · omega
  · rw [length_take]
    omega
  · rw [hat p hp, if_pos rfl]
  · intro q e' hq he'
    rw [length_take] at hq
    rw [hhome]
    exact (hu q e' hq (hold q e' hq he').2).1
  · intro q e' hq he' r hr hrq hrp
    rw [length_take] at hq
    rw [hhome] at hr
    rw [hat r (by omega), if_neg (by omega)]
    exact (hu q e' hq (hold q e' hq he').2).2 r hr hrq
  · intro q e' hq he' _ hlt
    omega

theorem remove_of_null (h : t.key i = .null w) : t.remove i = ⟨none, t, 0⟩ :=
  if_pos ((CodeUnit.isNull_iff _).mpr h)

theorem Aligned.remove_of_none (ha : t.Aligned) (h : t.slot? i = none) : t.remove i = ⟨none, t, 0⟩ :=
  remove_of_null (ha.slot?_eq_none_iff.mp h)

theorem remove_of_some (h : t.slot? i = some e) :
    t.remove i =
      let closed := closeGap t.length (t.take i) i ((i + 1) % t.length) 0
      ⟨some e.value, closed.1, closed.2⟩ := by
  have hkey : ¬(t.key i).isNull = true := by
    rw [key_of_slot? h]
    exact fun hn => nonnull_of_slot? h ((CodeUnit.isNull_iff _).mp hn)
  unfold remove
  rw [if_neg hkey, value?_of_slot? h]

theorem Valid.closes (hv : t.Valid) (hb : t.Based start) {p : Nat} (hp : p < t.length)
    (he : t.slot? ((start + p) % t.length) = some e) :
    ∃ n u k, n < t.length ∧
      Closes start (t.take ((start + p) % t.length)) p (p + 1) u k ∧
      GapRun n (t.take ((start + p) % t.length)) ((start + p) % t.length)
        (((start + p) % t.length + 1) % t.length) 0 (u, k) ∧
      t.remove ((start + p) % t.length) = ⟨some e.value, u, k⟩ := by
  have hgap := (hb.unbroken hv.reached).gap hv.aligned hb hp he
  obtain ⟨u, k, hc⟩ := Closes.exists_of_gap hgap
  obtain ⟨n, hn, hrun⟩ := hc.gapRun hgap 0
  rw [length_take] at hn hrun
  rw [← add_offset, Nat.zero_add] at hrun
  have hloop := hrun.closeGap_eq (by omega : n < t.length)
  refine ⟨n, u, k, by omega, hc, hrun, ?_⟩
  rw [remove_of_some he, hloop]

theorem Valid.remove (hv : t.Valid) (hb : t.Based start) {p : Nat} (hp : p < t.length)
    (he : t.onward? start p = some e) :
    ∃ t' k, t.remove ((start + p) % t.length) = ⟨some e.value, t', k⟩ ∧
      t.Vacated start p e t' := by
  have hgap := (hb.unbroken hv.reached).gap hv.aligned hb hp he
  obtain ⟨n, u, k, _, hc, _, hrem⟩ := hv.closes hb hp he
  have hslot : t.slot? ((start + p) % t.length) = some e := he
  have hp' : t.entries.Perm (e :: u.entries) :=
    (entries_vacate hslot).trans ((hc.entries_perm hgap).symm.cons e)
  have hl : u.length = t.length := by rw [hc.length_eq, length_take]
  have hbased := hc.based hgap
  refine ⟨u, k, hrem, ⟨⟨hc.aligned hgap, ?_, ?_⟩, ?_⟩, hbased, hl, hp', ?_⟩
  · exact ((Placeable.of_arranged hv.toArranged).perm hp').tail.distinct
  · intro i e' he'
    exact hbased.reaches (hc.unbroken hgap) he'
  · have hcount := hv.counted
    rw [hp'.length_eq, List.length_cons] at hcount
    rw [hc.count_eq]
    change t.count - 1 = u.entries.length
    omega
  · intro q hq
    have hagree := hc.agree hgap hq
    rwa [onward?_take hb.start_lt hp (by omega), if_neg (by omega)] at hagree

theorem Valid.gapRun (hv : t.Valid) (hvac : t.HasVacancy) (he : t.slot? i = some e) :
    ∃ n t' shifted, n < t.length ∧
      GapRun n (t.take i) i ((i + 1) % t.length) 0 (t', shifted) ∧
      t.remove i = ⟨some e.value, t', shifted⟩ := by
  obtain ⟨start, hb⟩ := hvac.based
  have hi := lt_length_of_slot? he
  have hat := add_distance hb.start_lt hi
  obtain ⟨n, u, k, hn, _, hrun, hrem⟩ := hv.closes hb
    (distance_lt (a := start) (b := i) (by omega)) (by rw [hat]; exact he)
  rw [hat] at hrun hrem
  exact ⟨n, u, k, hn, hrun, hrem⟩

end Table

end LexBase
