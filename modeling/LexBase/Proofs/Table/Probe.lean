import LexBase.Proofs.Table.Entries

/-!
# Probing

A table is arranged if it is aligned, its keys are distinct, and every entry is reached from the home
of its key over held slots only. It is valid if it knows the number of its entries as well. In an
arranged table with a vacant slot a probe always ends, and it ends at the key exactly if the key is
there.
-/

namespace LexBase

set_option autoImplicit false

namespace Table

variable {w : Width} {V : Type} {t : Table w V} {key : CodeUnit w}

/-- All slots from the home of the key up to, and without, slot `i` are held. -/
def Reaches (t : Table w V) (key : CodeUnit w) (i : Nat) : Prop :=
  ∀ j, j < distance t.length (home t.length key) i → (t.onward? (home t.length key) j).isSome

structure Arranged (t : Table w V) : Prop where
  aligned : t.Aligned
  distinct : (t.entries.map Entry.key).Nodup
  reached : ∀ i e, t.slot? i = some e → t.Reaches e.key i

structure Valid (t : Table w V) : Prop extends t.Arranged where
  counted : t.count = t.entries.length

def HasVacancy (t : Table w V) : Prop := ∃ i, i < t.length ∧ t.slot? i = none

theorem hasVacancy_of_lt (h : t.entries.length < t.length) : t.HasVacancy := by
  by_contra hn
  have hall : ∀ i ∈ List.range t.length, (t.slot? i).isSome = true := by
    intro i hi
    rw [Option.isSome_iff_ne_none]
    intro hv
    exact hn ⟨i, List.mem_range.mp hi, hv⟩
  have hc := List.countP_eq_length.mpr hall
  rw [entries_eq_filterMap, List.length_filterMap_eq_countP, hc, List.length_range] at h
  omega

theorem nodup_keys_iff : (t.entries.map Entry.key).Nodup ↔ ∀ i j e e',
    t.slot? i = some e → t.slot? j = some e' → e.key = e'.key → i = j := by
  rw [entries_eq_filterMap, List.Nodup, List.pairwise_map, List.pairwise_filterMap,
    List.pairwise_iff_getElem]
  simp only [List.length_range, List.getElem_range]
  constructor
  · intro hd i j e e' hi hj hk
    have hil := lt_length_of_slot? hi
    have hjl := lt_length_of_slot? hj
    rcases Nat.lt_trichotomy i j with hlt | heq | hgt
    · exact absurd hk (hd i j hil hjl hlt e hi e' hj)
    · exact heq
    · exact absurd hk.symm (hd j i hjl hil hgt e' hj e hi)
  · intro hd i j _ _ hlt e hi e' hj hk
    exact Nat.ne_of_lt hlt (hd i j e e' hi hj hk)

theorem HasVacancy.pos (h : t.HasVacancy) : 0 < t.length := by
  obtain ⟨i, hi, _⟩ := h
  omega

theorem home_lt {n : Nat} (hn : 0 < n) : home n key < n := Nat.mod_lt _ hn

theorem inspect_eq (ha : t.Aligned) (key : CodeUnit w) (i : Nat) : t.inspect key i =
    match t.slot? i with
    | none => some (.vacant i)
    | some e => if e.key = key then some (.held i) else none := by
  unfold inspect
  cases hs : t.slot? i with
  | none => rw [if_pos ((CodeUnit.isNull_iff _).mpr (ha.slot?_eq_none_iff.mp hs))]
  | some e =>
    rw [key_of_slot? hs, if_neg fun h => nonnull_of_slot? hs ((CodeUnit.isNull_iff _).mp h)]

section Inspection

variable {i k : Nat} (ha : t.Aligned)
include ha

theorem inspect_eq_none_iff :
    t.inspect key i = none ↔ ∃ e, t.slot? i = some e ∧ e.key ≠ key := by
  rw [inspect_eq ha]
  cases t.slot? i with
  | none => simp
  | some e => by_cases h : e.key = key <;> simp [h]

theorem inspect_eq_held_iff :
    t.inspect key i = some (.held k) ↔ i = k ∧ ∃ e, t.slot? i = some e ∧ e.key = key := by
  rw [inspect_eq ha]
  cases t.slot? i with
  | none => simp
  | some e => by_cases h : e.key = key <;> simp [h]

theorem inspect_eq_vacant_iff :
    t.inspect key i = some (.vacant k) ↔ i = k ∧ t.slot? i = none := by
  rw [inspect_eq ha]
  cases t.slot? i with
  | none => simp
  | some e => by_cases h : e.key = key <;> simp [h]

end Inspection

theorem probe_eq_some_iff {s : Spot} :
    t.probe key = some s ↔ ∃ j, j < t.length ∧
      t.inspect key ((home t.length key + j) % t.length) = some s ∧
      ∀ k, k < j → t.inspect key ((home t.length key + k) % t.length) = none := by
  simp only [probe, firstSome_eq_some_iff, Nat.zero_add]

/-- Where a probe ends at a vacant slot there is no key, whatever the values are. -/
theorem key_of_probe_vacant {i : Nat} (h : t.probe key = some (.vacant i)) : t.key i = .null w := by
  obtain ⟨j, _, hj, _⟩ := probe_eq_some_iff.mp h
  unfold inspect at hj
  split at hj
  · next hnull =>
    obtain rfl := Spot.vacant.inj (Option.some.inj hj)
    exact (CodeUnit.isNull_iff _).mp hnull
  · split at hj <;> cases hj

theorem probe_isSome (ha : t.Aligned) (h : t.HasVacancy) (key : CodeUnit w) :
    (t.probe key).isSome := by
  rw [Option.isSome_iff_ne_none]
  intro hn
  obtain ⟨i, hi, hv⟩ := h
  have hh : home t.length key < t.length := home_lt (by omega)
  have hall := firstSome_eq_none_iff.mp hn (distance t.length (home t.length key) i)
    (distance_lt (by omega))
  rw [Nat.zero_add, add_distance hh hi] at hall
  obtain ⟨e, he, _⟩ := (inspect_eq_none_iff ha).mp hall
  simp [hv] at he

theorem slot?_of_probe_held {i : Nat} (ha : t.Aligned) (h : t.probe key = some (.held i)) :
    ∃ e, t.slot? i = some e ∧ e.key = key := by
  obtain ⟨j, _, hj, _⟩ := probe_eq_some_iff.mp h
  obtain ⟨rfl, he⟩ := (inspect_eq_held_iff ha).mp hj
  exact he

/-- What a probe that ends at a vacant slot has seen: other keys all the way. -/
structure EndsVacant (t : Table w V) (key : CodeUnit w) (i : Nat) : Prop where
  lt_length : i < t.length
  vacant : t.slot? i = none
  others : ∀ j, j < distance t.length (home t.length key) i →
    ∃ e, t.onward? (home t.length key) j = some e ∧ e.key ≠ key

theorem endsVacant_of_probe {i : Nat} (ha : t.Aligned) (h : t.probe key = some (.vacant i)) :
    t.EndsVacant key i := by
  obtain ⟨j, hj, hi, hbefore⟩ := probe_eq_some_iff.mp h
  obtain ⟨rfl, hv⟩ := (inspect_eq_vacant_iff ha).mp hi
  have hh : home t.length key < t.length := home_lt (by omega)
  refine ⟨Nat.mod_lt _ (by omega), hv, ?_⟩
  intro k hk
  rw [distance_add hh hj] at hk
  exact (inspect_eq_none_iff ha).mp (hbefore k hk)

theorem EndsVacant.reaches {i : Nat} (h : t.EndsVacant key i) : t.Reaches key i := by
  intro j hj
  obtain ⟨e, he, _⟩ := h.others j hj
  simp [he]

theorem EndsVacant.entries_occupy {i : Nat} (h : t.EndsVacant key i) (ha : t.Aligned)
    (hk : key ≠ .null w) (v : V) :
    (t.occupy i ⟨key, v⟩).entries.Perm (⟨key, v⟩ :: t.entries) :=
  Table.entries_occupy ha h.lt_length h.vacant hk

/-- A key that the probe did not meet is not in the table: it would stand before the vacant slot. -/
theorem EndsVacant.absent {i : Nat} (h : t.EndsVacant key i) (hv : t.Arranged) :
    ∀ e ∈ t.entries, e.key ≠ key := by
  intro e he hkey
  obtain ⟨k, hk⟩ := mem_entries.mp he
  have hkl := lt_length_of_slot? hk
  have hh : home t.length key < t.length := home_lt (by omega)
  have hreach := hv.reached k e hk
  rw [hkey] at hreach
  rcases Nat.lt_trichotomy (distance t.length (home t.length key) i)
      (distance t.length (home t.length key) k) with hlt | heq | hgt
  · have hs := hreach _ hlt
    rw [onward?, add_distance hh h.lt_length, h.vacant] at hs
    simp at hs
  · have hik : i = k := by
      rw [← add_distance hh h.lt_length, heq, add_distance hh hkl]
    rw [← hik, h.vacant] at hk
    simp at hk
  · obtain ⟨e', he', hne⟩ := h.others _ hgt
    rw [onward?, add_distance hh hkl, hk] at he'
    obtain rfl := Option.some.inj he'
    exact hne hkey

theorem probe_cases (ha : t.Aligned) (h : t.HasVacancy) (key : CodeUnit w) :
    (∃ i e, t.probe key = some (.held i) ∧ t.slot? i = some e ∧ e.key = key) ∨
    ∃ i, t.probe key = some (.vacant i) ∧ t.EndsVacant key i := by
  obtain ⟨s, hs⟩ := Option.isSome_iff_exists.mp (probe_isSome ha h key)
  cases s with
  | held i =>
    obtain ⟨e, he, hk⟩ := slot?_of_probe_held ha hs
    exact Or.inl ⟨i, e, hs, he, hk⟩
  | vacant i => exact Or.inr ⟨i, hs, endsVacant_of_probe ha hs⟩

namespace Arranged

theorem eq_of_key_eq (hv : t.Arranged) {e e' : Entry w V} (he : e ∈ t.entries)
    (he' : e' ∈ t.entries) (hk : e.key = e'.key) : e = e' :=
  List.inj_on_of_nodup_map hv.distinct he he' hk

theorem slot_eq_of_key_eq (hv : t.Arranged) {i j : Nat} {e e' : Entry w V}
    (hi : t.slot? i = some e) (hj : t.slot? j = some e') (hk : e.key = e'.key) : i = j :=
  nodup_keys_iff.mp hv.distinct i j e e' hi hj hk

theorem find?_eq_some_iff (hv : t.Arranged) (h : t.HasVacancy) {v : V} :
    t.find? key = some v ↔ ⟨key, v⟩ ∈ t.entries := by
  unfold find?
  rcases probe_cases hv.aligned h key with ⟨i, e, hp, he, rfl⟩ | ⟨i, hp, hend⟩
  · rw [hp]
    simp only [value?_of_slot? he, Option.some.injEq]
    constructor
    · rintro rfl
      exact mem_entries.mpr ⟨i, he⟩
    · intro hmem
      exact congrArg Entry.value (hv.eq_of_key_eq (mem_entries.mpr ⟨i, he⟩) hmem rfl)
  · rw [hp]
    exact iff_of_false (Option.some_ne_none v).symm fun hmem => hend.absent hv _ hmem rfl

theorem contains_iff (hv : t.Arranged) (h : t.HasVacancy) :
    t.contains key = true ↔ ∃ e ∈ t.entries, e.key = key := by
  unfold contains
  rcases probe_cases hv.aligned h key with ⟨i, e, hp, he, rfl⟩ | ⟨i, hp, hend⟩
  · rw [hp]
    exact iff_of_true rfl ⟨e, mem_entries.mpr ⟨i, he⟩, rfl⟩
  · rw [hp]
    refine iff_of_false Bool.false_ne_true ?_
    rintro ⟨e, he, hk⟩
    exact hend.absent hv e he hk

end Arranged

end Table

end LexBase
