import LexBase.Proofs.Table.Occupancy
import Mathlib.Data.Finset.Card

/-!
# What a removal moves

The loop that closes a gap carries the hole along. The held slots together with the hole are the
same at every step, so all that becomes vacant is the slot where the hole ends up. An entry moves
back over held slots, never past its home, and since the loop leaves the slots behind the hole
alone, it moves only once: there are as many moves as entries that stand elsewhere afterwards.
-/

namespace LexBase

set_option autoImplicit false

variable {w : Width} {V : Type}

namespace Table

variable {t t' : Table w V} {start hole i j k : Nat} {e : Entry w V}

/-- The held slots of `t` whose key does not stand there in `t'`. -/
def displaced (t t' : Table w V) : Finset Nat :=
  (Finset.range t.length).filter fun j =>
    (t.slot? j).isSome ∧ (t'.slot? j).map Entry.key ≠ (t.slot? j).map Entry.key

theorem mem_displaced : j ∈ t.displaced t' ↔
    ∃ e, t.slot? j = some e ∧ (t'.slot? j).map Entry.key ≠ some e.key := by
  unfold displaced
  rw [Finset.mem_filter, Finset.mem_range]
  constructor
  · rintro ⟨_, hheld, hne⟩
    obtain ⟨e, he⟩ := Option.isSome_iff_exists.mp hheld
    rw [he] at hne
    exact ⟨e, he, hne⟩
  · rintro ⟨e, he, hne⟩
    refine ⟨lt_length_of_slot? he, ?_⟩
    rw [he]
    exact ⟨rfl, hne⟩

theorem displaced_self (t : Table w V) : t.displaced t = ∅ := by
  apply Finset.eq_empty_of_forall_notMem
  intro j hj
  obtain ⟨e, he, hne⟩ := mem_displaced.mp hj
  rw [he] at hne
  exact hne rfl

theorem not_mem_displaced_of_none (h : t.slot? j = none) : j ∉ t.displaced t' := by
  intro hj
  obtain ⟨e, he, _⟩ := mem_displaced.mp hj
  rw [h] at he
  cases he

theorem displaced_congr {u : Table w V} (h : t.slot? j = u.slot? j) :
    j ∈ t.displaced t' ↔ j ∈ u.displaced t' := by
  rw [mem_displaced, mem_displaced, h]

def HeldBetween (t : Table w V) (start p q : Nat) : Prop :=
  ∀ r, p < r → r < q → (t.onward? start r).isSome

theorem heldBetween_succ (t : Table w V) (start p : Nat) : t.HeldBetween start p (p + 1) := by
  intro r hr hrp
  omega

theorem HeldBetween.succ {p q : Nat} (h : t.HeldBetween start p q)
    (he : t.onward? start q = some e) : t.HeldBetween start p (q + 1) := by
  intro r hr hrq
  rcases Nat.lt_or_eq_of_le (Nat.le_of_lt_succ hrq) with hlt | rfl
  · exact h r hr hlt
  · rw [he]
    rfl

namespace Gap

theorem slot?_pull (h : t.Gap start hole i) (he : t.onward? start i = some e) (j : Nat) :
    (t.pull start hole i).slot? j = if (start + i) % t.length = j then none
      else if (start + hole) % t.length = j then some e else t.slot? j := by
  exact slot?_shift h.aligned (Nat.mod_lt _ (Nat.zero_lt_of_lt h.lt_length)) he j

/-- A move trades the hole for the slot that the entry leaves. -/
theorem filled_pull (h : t.Gap start hole i) (he : t.onward? start i = some e) (j : Nat) :
    (j = (start + i) % t.length ∨ ((t.pull start hole i).slot? j).isSome) ↔
      (j = (start + hole) % t.length ∨ (t.slot? j).isSome) := by
  rw [h.slot?_pull he]
  by_cases hi : (start + i) % t.length = j
  · subst hi
    have hheld : (t.slot? ((start + i) % t.length)).isSome := by
      rw [← onward?, he]
      rfl
    simp [hheld]
  · by_cases hh : (start + hole) % t.length = j
    · simp [hi, hh]
    · have hi' : j ≠ (start + i) % t.length := fun heq => hi heq.symm
      have hh' : j ≠ (start + hole) % t.length := fun heq => hh heq.symm
      simp [hi, hh, hi', hh']

theorem displaced_pull (h : t.Gap start hole i) (he : t.onward? start i = some e)
    (hd : (t'.entries.map Entry.key).Nodup)
    (hstays : t'.slot? ((start + hole) % t.length) = some e) :
    t.displaced t' = insert ((start + i) % t.length) ((t.pull start hole i).displaced t') := by
  have hi := h.lt_length
  have hlt := h.hole_lt
  ext j
  rw [Finset.mem_insert]
  by_cases hji : (start + i) % t.length = j
  · subst hji
    refine iff_of_true (mem_displaced.mpr ⟨e, he, ?_⟩) (Or.inl rfl)
    intro hkey
    obtain ⟨e', he', hk⟩ := Option.map_eq_some_iff.mp hkey
    have hsame := nodup_keys_iff.mp hd _ _ _ _ hstays he' hk.symm
    rw [offset_inj h.based.start_lt (by omega) hi] at hsame
    omega
  · by_cases hjh : (start + hole) % t.length = j
    · subst hjh
      refine iff_of_false (not_mem_displaced_of_none h.hole_vacant) ?_
      rintro (heq | hmem)
      · exact hji heq.symm
      · obtain ⟨e', he', hne⟩ := mem_displaced.mp hmem
        rw [h.slot?_pull he, if_neg hji, if_pos rfl] at he'
        rw [hstays, Option.some.inj he'] at hne
        exact hne rfl
    · have hsame : t.slot? j = (t.pull start hole i).slot? j := by
        rw [h.slot?_pull he, if_neg hji, if_neg hjh]
      rw [displaced_congr hsame]
      constructor
      · exact Or.inr
      · rintro (heq | hmem)
        · exact absurd heq.symm hji
        · exact hmem

end Gap

namespace Closes

/-- Of the held slots and the hole, one is vacant at the end. -/
theorem vacated (hc : Closes start t hole i t' k) (h : t.Gap start hole i) {held : Nat → Prop}
    (hheld : ∀ j, held j ↔ j = (start + hole) % t.length ∨ (t.slot? j).isSome) :
    ∃ last, held last ∧ ∀ j, (t'.slot? j).isSome ↔ j ≠ last ∧ held j := by
  induction hc with
  | @stop t hole i _ =>
    refine ⟨(start + hole) % t.length, (hheld _).mpr (Or.inl rfl), ?_⟩
    intro j
    rw [hheld]
    constructor
    · intro hs
      refine ⟨?_, Or.inr hs⟩
      rintro rfl
      rw [← onward?, h.hole_vacant] at hs
      cases hs
    · rintro ⟨hne, heq | hs⟩
      · exact absurd heq hne
      · exact hs
  | stay he hhome _ ih => exact ih (h.stay he hhome) hheld
  | move he hhome _ ih =>
    apply ih (h.move he hhome)
    intro j
    rw [hheld, length_pull, h.filled_pull he]

theorem slot?_hole (hc : Closes start (t.pull start hole i) i (i + 1) t' k)
    (h : t.Gap start hole i) (he : t.onward? start i = some e) (hhome : t.homeOffset start e ≤ hole) :
    t'.onward? start hole = some e := by
  have hlt := h.hole_lt
  have hi := h.lt_length
  rw [hc.agree (h.move he hhome) hlt, onward?_pull h.aligned h.based.start_lt (by omega) hi (by omega) he,
    if_neg (by omega), if_pos rfl]

/-- An entry stays, or it moves back over slots that are held all the way from the hole. -/
theorem lands (hc : Closes start t hole i t' k) (h : t.Gap start hole i)
    (hseen : t.HeldBetween start hole i) {p : Nat} {f : Entry w V} (hp : p < t.length)
    (hf : t.onward? start p = some f) :
    t'.onward? start p = some f ∨ ∃ p', p' < p ∧ t'.onward? start p' = some f ∧
      hole < p ∧ t.HeldBetween start hole (p + 1) := by
  induction hc with
  | stop _ => exact Or.inl hf
  | stay he hhome _ ih => exact ih (h.stay he hhome) (hseen.succ he) hp hf
  | @move t t' hole i k e he hhome hc ih =>
    have hlt := h.hole_lt
    have hi := h.lt_length
    have hat : ∀ q, q < t.length → (t.pull start hole i).onward? start q =
        if i = q then none else if hole = q then some e else t.onward? start q :=
      fun q hq => onward?_pull h.aligned h.based.start_lt (by omega) hi hq he
    by_cases hpi : p = i
    · subst hpi
      obtain rfl := Option.some.inj (he.symm.trans hf)
      exact Or.inr ⟨hole, hlt, hc.slot?_hole h he hhome, hlt, hseen.succ he⟩
    · have hph : hole ≠ p := by
        rintro rfl
        rw [h.hole_vacant] at hf
        cases hf
      have hold : (t.pull start hole i).onward? start p = some f := by
        rw [hat p hp, if_neg (by omega), if_neg hph, hf]
      rcases ih (h.move he hhome) (heldBetween_succ _ _ _) (by rwa [length_pull]) hold with
        hstay | ⟨p', hp', hland, hip, hpath⟩
      · exact Or.inl hstay
      · refine Or.inr ⟨p', hp', hland, by omega, ?_⟩
        intro q hq hqp
        by_cases hqi : q < i + 1
        · exact hseen.succ he q hq hqi
        · have hstep := hpath q (by omega) hqp
          rwa [hat q (by omega), if_neg (by omega), if_neg (by omega)] at hstep

theorem card_displaced (hc : Closes start t hole i t' k) (h : t.Gap start hole i)
    (hd : (t'.entries.map Entry.key).Nodup) : (t.displaced t').card = k := by
  induction hc with
  | stop _ => rw [displaced_self, Finset.card_empty]
  | stay he hhome _ ih => exact ih (h.stay he hhome) hd
  | @move t t' hole i k e he hhome hc ih =>
    have hstays := hc.slot?_hole h he hhome
    rw [onward?, hc.length_eq, length_pull] at hstays
    have hgone : (t.pull start hole i).slot? ((start + i) % t.length) = none := by
      rw [h.slot?_pull he, if_pos rfl]
    rw [h.displaced_pull he hd hstays,
      Finset.card_insert_of_notMem (not_mem_displaced_of_none hgone), ih (h.move he hhome) hd]

end Closes

/-- What the removal of the entry at slot `i` does to a table. -/
structure Removes (t : Table w V) (i : Nat) (e : Entry w V) (t' : Table w V) (shifted : Nat) :
    Prop where
  valid : t'.Valid
  length_eq : t'.length = t.length
  perm : t.entries.Perm (e :: t'.entries)
  /-- The loop without a bound ends, and it stays inside the table. -/
  ends : ∃ n, n < t.length ∧
    GapRun n (t.take i) i ((i + 1) % t.length) 0 (t', shifted)
  vacated : ∃ last, (t.slot? last).isSome ∧
    ∀ j, (t'.slot? j).isSome ↔ j ≠ last ∧ (t.slot? j).isSome
  /-- An entry that moves comes closer to its home, and the slots from `i` to it are held. -/
  lands : ∀ j f, j ≠ i → t.slot? j = some f → t'.slot? j = some f ∨
    ∃ j', t'.slot? j' = some f ∧ t.HeldFrom i j ∧
      distance t.length (home t.length f.key) j' < distance t.length (home t.length f.key) j
  shifted_eq : shifted = ((t.displaced t').erase i).card

section Offsets

variable {p : Nat} (hb : t.Based start) (hp : p < t.length) (he : t.onward? start p = some e)
  (hc : Closes start (t.take ((start + p) % t.length)) p (p + 1) t' k)
include hb hp he hc

theorem Unbroken.closes_vacated (ha : t.Aligned) (hu : t.Unbroken start) :
    ∃ last, (t.slot? last).isSome ∧ ∀ j, (t'.slot? j).isSome ↔ j ≠ last ∧ (t.slot? j).isSome := by
  apply hc.vacated (hu.gap ha hb hp he)
  intro j
  rw [length_take, slot?_take (Nat.mod_lt _ (by omega))]
  by_cases hj : (start + p) % t.length = j
  · subst hj
    rw [← onward?, he]
    simp
  · have hj' : j ≠ (start + p) % t.length := fun heq => hj heq.symm
    simp [hj, hj']

theorem Unbroken.closes_lands (ha : t.Aligned) (hu : t.Unbroken start) {f : Entry w V}
    (hj : j ≠ (start + p) % t.length) (hf : t.slot? j = some f) : t'.slot? j = some f ∨
      ∃ j', t'.slot? j' = some f ∧ t.HeldFrom ((start + p) % t.length) j ∧
        distance t.length (home t.length f.key) j' <
          distance t.length (home t.length f.key) j := by
  have hgap := hu.gap ha hb hp he
  have hl : t'.length = t.length := by rw [hc.length_eq, length_take]
  have hjl := lt_length_of_slot? hf
  have hq := distance_lt (a := start) (b := j) (by omega : 0 < t.length)
  have hat := add_distance hb.start_lt hjl
  generalize distance t.length start j = q at hq hat
  have hpq' : p ≠ q := by
    rintro rfl
    exact hj hat.symm
  have hfq : (t.take ((start + p) % t.length)).onward? start q = some f := by
    rw [onward?_take hb.start_lt hp hq, if_neg hpq', onward?, hat, hf]
  rcases hc.lands hgap (heldBetween_succ _ _ _) (by rwa [length_take]) hfq with
    hstay | ⟨q', hlt, hland, hpq, hpath⟩
  · rw [onward?, hl, hat] at hstay
    exact Or.inl hstay
  · right
    refine ⟨(start + q') % t.length, by rwa [onward?, hl] at hland, ?_, ?_⟩
    · intro d hd
      rw [← hat, distance_offsets hb.start_lt hp hq, if_pos (by omega)] at hd
      rw [onward?, add_offset, ← onward?]
      rcases Nat.eq_zero_or_pos d with rfl | hpos
      · rw [Nat.add_zero, he]
        rfl
      · have hstep := hpath (p + d) (by omega) (by omega)
        rwa [onward?_take hb.start_lt hp (by omega), if_neg (by omega)] at hstep
    · have hhome := (hc.unbroken hgap q' f (by omega) hland).1
      rw [homeOffset, hl, ← homeOffset] at hhome
      rw [← hat, hb.distance_home (by omega), hb.distance_home hq, if_pos hhome,
        if_pos (by omega)]
      omega

theorem Unbroken.closes_displaced (ha : t.Aligned) (hu : t.Unbroken start)
    (hd : (t'.entries.map Entry.key).Nodup) :
    ((t.displaced t').erase ((start + p) % t.length)).card = k := by
  have hin := Nat.mod_lt (start + p) (by omega : 0 < t.length)
  rw [← hc.card_displaced (hu.gap ha hb hp he) hd]
  congr 1
  ext j
  rw [Finset.mem_erase]
  by_cases hj : (start + p) % t.length = j
  · subst hj
    have hnone : (t.take ((start + p) % t.length)).slot? ((start + p) % t.length) = none := by
      rw [slot?_take hin, if_pos rfl]
    exact iff_of_false (fun h => h.1 rfl) (not_mem_displaced_of_none hnone)
  · have hsame : t.slot? j = (t.take ((start + p) % t.length)).slot? j := by
      rw [slot?_take hin, if_neg hj]
    rw [displaced_congr hsame]
    exact and_iff_right fun heq => hj heq.symm

end Offsets

theorem Valid.removes (hv : t.Valid) (hvac : t.HasVacancy) (he : t.slot? i = some e) :
    ∃ t' shifted, t.remove i = ⟨some e.value, t', shifted⟩ ∧ t.Removes i e t' shifted := by
  obtain ⟨start, hb⟩ := hvac.based
  have hi := lt_length_of_slot? he
  have hat := add_distance hb.start_lt hi
  have hp := distance_lt (a := start) (b := i) (by omega : 0 < t.length)
  generalize distance t.length start i = p at hat hp
  subst hat
  have hu := hb.unbroken hv.reached
  obtain ⟨n, u, k, hn, hc, hrun, hrem⟩ := hv.closes hb hp he
  obtain ⟨t', k', hrem', hleft⟩ := hv.remove hb hp he
  obtain ⟨-, rfl, rfl⟩ := Removal.mk.inj (hrem.symm.trans hrem')
  have hvacated := hu.closes_vacated hb hp he hc hv.aligned
  have hlands := fun j f hj hf => hu.closes_lands (j := j) (f := f) hb hp he hc hv.aligned hj hf
  have hmoves := hu.closes_displaced hb hp he hc hv.aligned hleft.valid.distinct
  exact ⟨_, k, hrem, hleft.valid, hleft.length_eq, hleft.perm, ⟨n, hn, hrun⟩, hvacated, hlands,
    hmoves.symm⟩

end Table

end LexBase
