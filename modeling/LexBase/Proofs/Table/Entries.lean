import LexBase.Proofs.Table.Distance
import LexBase.Table.Remove

/-!
# The entries of a table

A table is aligned if its arrays have one length and nothing but the null keys lacks a value; then a
slot is vacant exactly if its key is null. The entries are listed in slot order. What a write does to
the list is stated up to its order: an entry written to a vacant slot joins the list, one written over
another takes its place, and one that moves changes nothing. The tour from a start lists the same
entries in the order in which a walk around the table from that start meets them.
-/

namespace LexBase

set_option autoImplicit false

section Lists

variable {α β : Type} {f g : Nat → Option α} {n i : Nat}

theorem perm_filterMap_range {a : α} (hi : i < n) (hf : f i = none) (hg : g i = some a)
    (h : ∀ j, i ≠ j → g j = f j) :
    ((List.range n).filterMap g).Perm (a :: (List.range n).filterMap f) := by
  have hp := List.perm_cons_erase (List.mem_range.mpr hi)
  have hrest : ((List.range n).erase i).filterMap g = ((List.range n).erase i).filterMap f := by
    refine List.filterMap_congr fun j hj => h j ?_
    rintro rfl
    exact (List.nodup_range.mem_erase_iff.mp hj).1 rfl
  have hgain := hp.filterMap g
  have hlack := hp.filterMap f
  rw [List.filterMap_cons_some hg, hrest] at hgain
  rw [List.filterMap_cons_none hf] at hlack
  exact hgain.trans (hlack.symm.cons a)

theorem isRotated_filterMap {l l' : List α} (h : l ~r l') (f : α → Option β) :
    l.filterMap f ~r l'.filterMap f := by
  obtain ⟨k, hk, rfl⟩ := List.isRotated_iff_mod.mp h
  rw [List.rotate_eq_drop_append_take hk, List.filterMap_append]
  conv_lhs => rw [← List.take_append_drop k l, List.filterMap_append]
  exact List.isRotated_append

end Lists

namespace Table

variable {w : Width} {V : Type} {t : Table w V} {i : Nat} {e : Entry w V}

/-- A slot has a value exactly if its key is not null. -/
structure Aligned (t : Table w V) : Prop where
  size_eq : t.values.size = t.keys.size
  none_iff : ∀ i, i < t.length → (t.value? i = none ↔ t.key i = .null w)

theorem key_eq_getElem (h : i < t.keys.size) : t.key i = t.keys[i] := by
  simp [key, Array.getD_eq_getD_getElem?, h]

theorem value?_eq_getElem (h : i < t.values.size) : t.value? i = t.values[i] := by
  simp [value?, Array.getD_eq_getD_getElem?, h]

theorem key_of_slot? (h : t.slot? i = some e) : t.key i = e.key := (slot?_eq_some_iff.mp h).2.1

theorem value?_of_slot? (h : t.slot? i = some e) : t.value? i = some e.value :=
  (slot?_eq_some_iff.mp h).2.2

theorem nonnull_of_slot? (h : t.slot? i = some e) : e.key ≠ .null w := (slot?_eq_some_iff.mp h).1

theorem lt_length_of_slot? (h : t.slot? i = some e) : i < t.length := by
  by_contra hi
  rw [slot?_eq_none_of_le (by omega)] at h
  cases h

theorem mem_entries : e ∈ t.entries ↔ ∃ i, t.slot? i = some e := by
  unfold entries
  rw [List.mem_filterMap]
  constructor
  · rintro ⟨i, _, h⟩
    exact ⟨i, h⟩
  · rintro ⟨i, h⟩
    exact ⟨i, List.mem_range.mpr (lt_length_of_slot? h), h⟩

theorem nonnull (h : e ∈ t.entries) : e.key ≠ .null w := by
  obtain ⟨i, hi⟩ := mem_entries.mp h
  exact nonnull_of_slot? hi

@[simp] theorem entries_empty (n : Nat) : (empty n : Table w V).entries = [] := by
  simp [entries]

namespace Aligned

theorem lt_size (ha : t.Aligned) (hi : i < t.length) : i < t.values.size := by
  rw [ha.size_eq]
  exact hi

theorem of_getElem (hs : t.values.size = t.keys.size)
    (h : ∀ i (hk : i < t.keys.size) (hv : i < t.values.size),
      t.values[i] = none ↔ t.keys[i] = .null w) : t.Aligned := by
  refine ⟨hs, ?_⟩
  intro i hk
  have hv : i < t.values.size := hs ▸ hk
  rw [value?_eq_getElem hv, key_eq_getElem hk]
  exact h i hk hv

theorem getElem_eq_none_iff (ha : t.Aligned) (i : Nat) (hk : i < t.keys.size)
    (hv : i < t.values.size) : t.values[i] = none ↔ t.keys[i] = .null w := by
  rw [← value?_eq_getElem hv, ← key_eq_getElem hk]
  exact ha.none_iff i hk

theorem empty (n : Nat) : (Table.empty n : Table w V).Aligned where
  size_eq := by simp [Table.empty]
  none_iff i hi := by
    have hn : i < n := by simpa using hi
    simp [Table.empty, value?, key, hn]

theorem fill (ha : t.Aligned) (i : Nat) {key : CodeUnit w} {value : Option V}
    (h : value = none ↔ key = .null w) : (t.fill i key value).Aligned := by
  refine ⟨by simpa [Table.fill] using ha.size_eq, ?_⟩
  intro j hj
  rw [length_fill] at hj
  by_cases hij : i = j
  · subst hij
    rw [value?_fill_self (ha.lt_size hj), key_fill_self hj]
    exact h
  · rw [value?_fill_of_ne hij, key_fill_of_ne hij]
    exact ha.none_iff j hj

theorem fill_some (ha : t.Aligned) (i : Nat) {key : CodeUnit w} (hk : key ≠ .null w) (v : V) :
    (t.fill i key (some v)).Aligned :=
  ha.fill i (iff_of_false (Option.some_ne_none v) hk)

theorem vacate (ha : t.Aligned) (i : Nat) : (t.vacate i).Aligned := ha.fill i (iff_of_true rfl rfl)

theorem store (ha : t.Aligned) (h : t.slot? i = some e) (v : V) : (t.store i v).Aligned := by
  have hi := ha.lt_size (lt_length_of_slot? h)
  refine ⟨by simpa [Table.store] using ha.size_eq, ?_⟩
  intro j hj
  change _ ↔ t.key j = _
  by_cases hij : i = j
  · subst hij
    rw [value?_store_self hi, key_of_slot? h]
    exact iff_of_false (Option.some_ne_none v) (nonnull_of_slot? h)
  · rw [value?_store_of_ne hij]
    exact ha.none_iff j hj

theorem value?_eq_none (ha : t.Aligned) (h : t.key i = .null w) : t.value? i = none := by
  by_cases hi : i < t.length
  · exact (ha.none_iff i hi).mpr h
  · have hout : t.values.size ≤ i := ha.size_eq ▸ Nat.le_of_not_lt hi
    rw [value?, Array.getD_eq_getD_getElem?, Array.getElem?_eq_none hout, Option.getD_none]

theorem slot?_eq_none_iff (ha : t.Aligned) : t.slot? i = none ↔ t.key i = .null w := by
  refine ⟨?_, slot?_of_null⟩
  intro h
  by_contra hk
  have hi : i < t.length := by
    by_contra hout
    exact hk (key_eq_null_of_le (by omega))
  cases hv : t.value? i with
  | none => exact hk ((ha.none_iff i hi).mp hv)
  | some v =>
    have hs : t.slot? i = some ⟨t.key i, v⟩ := slot?_eq_some_iff.mpr ⟨hk, rfl, hv⟩
    rw [h] at hs
    cases hs

theorem map_held (ha : t.Aligned) {β : Type} {f : Nat → β} {g : Entry w V → β}
    (h : ∀ i e, t.slot? i = some e → f i = g e) :
    ((List.range t.length).filter fun i => !(t.key i).isNull).map f = t.entries.map g := by
  unfold entries
  rw [List.map_filterMap, ← List.filterMap_eq_map, List.filterMap_filter]
  refine List.filterMap_congr fun i _ => ?_
  cases hs : t.slot? i with
  | none =>
    have hnull := (CodeUnit.isNull_iff _).mpr (ha.slot?_eq_none_iff.mp hs)
    simp [hnull]
  | some e => simp [key_of_slot? hs, nonnull_of_slot? hs, h i e hs]

theorem keys_eq (ha : t.Aligned) :
    (t.keys.toList.filter fun key => !key.isNull) = t.entries.map Entry.key := by
  have hkeys : t.keys.toList = (List.range t.length).map t.key := by
    apply List.ext_getElem
    · simp [length]
    · intro i hi _
      have hk : i < t.keys.size := by simpa using hi
      simp [key, Array.getD_eq_getD_getElem?, hk]
  rw [hkeys, List.filter_map]
  exact ha.map_held fun i e he => key_of_slot? he

end Aligned

section Writes

variable (ha : t.Aligned)
include ha

theorem slot?_fill (hi : i < t.length) {key : CodeUnit w} (hk : key ≠ .null w) (v : V) (j : Nat) :
    (t.fill i key (some v)).slot? j = if i = j then some ⟨key, v⟩ else t.slot? j := by
  by_cases hij : i = j
  · subst hij
    rw [if_pos rfl, slot?_eq_some_iff, key_fill_self hi, value?_fill_self (ha.lt_size hi)]
    exact ⟨hk, rfl, rfl⟩
  · rw [if_neg hij, slot?_fill_of_ne hij]

theorem slot?_occupy (hi : i < t.length) (hk : e.key ≠ .null w) (j : Nat) :
    (t.occupy i e).slot? j = if i = j then some e else t.slot? j :=
  slot?_fill ha hi hk e.value j

theorem slot?_store (h : t.slot? i = some e) (v : V) (j : Nat) :
    (t.store i v).slot? j = if i = j then some ⟨e.key, v⟩ else t.slot? j := by
  have hi := ha.lt_size (lt_length_of_slot? h)
  by_cases hij : i = j
  · subst hij
    have hk : t.key i = e.key := key_of_slot? h
    have hnull : e.key ≠ .null w := nonnull_of_slot? h
    rw [if_pos rfl, slot?_eq_some_iff, value?_store_self hi]
    exact ⟨hnull, hk, rfl⟩
  · rw [if_neg hij, slot?_store_of_ne hij]

theorem entries_fill (hi : i < t.length) (h : t.slot? i = none) {key : CodeUnit w}
    (hk : key ≠ .null w) (v : V) :
    (t.fill i key (some v)).entries.Perm (⟨key, v⟩ :: t.entries) := by
  have hat := slot?_fill ha hi hk v
  unfold entries
  rw [length_fill]
  exact perm_filterMap_range hi h ((hat i).trans (if_pos rfl)) fun j hj => (hat j).trans (if_neg hj)

theorem entries_occupy (hi : i < t.length) (h : t.slot? i = none) (hk : e.key ≠ .null w) :
    (t.occupy i e).entries.Perm (e :: t.entries) :=
  entries_fill ha hi h hk e.value

end Writes

@[simp] theorem length_vacate (t : Table w V) (i : Nat) : (t.vacate i).length = t.length :=
  length_fill t i _ none

theorem slot?_vacate (hi : i < t.length) (j : Nat) :
    (t.vacate i).slot? j = if i = j then none else t.slot? j := by
  by_cases hij : i = j
  · subst hij
    rw [if_pos rfl, slot?_of_null]
    exact key_fill_self hi _ none
  · rw [if_neg hij]
    exact slot?_fill_of_ne hij _ none

theorem entries_vacate (h : t.slot? i = some e) : t.entries.Perm (e :: (t.vacate i).entries) := by
  have hi := lt_length_of_slot? h
  have hat := slot?_vacate (t := t) hi
  unfold entries
  rw [length_vacate]
  exact perm_filterMap_range hi ((hat i).trans (if_pos rfl)) h fun j hj =>
    ((hat j).trans (if_neg hj)).symm

/-- Both tables are the one without the entry, and one entry more. -/
theorem entries_store (ha : t.Aligned) (h : t.slot? i = some e) (v : V) : ∃ rest,
    t.entries.Perm (e :: rest) ∧ (t.store i v).entries.Perm (⟨e.key, v⟩ :: rest) := by
  have hi := lt_length_of_slot? h
  refine ⟨(t.vacate i).entries, entries_vacate h, ?_⟩
  have hat := slot?_store ha h v
  have hgone := slot?_vacate (t := t) hi
  unfold entries
  rw [length_vacate, length_store]
  refine perm_filterMap_range hi ((hgone i).trans (if_pos rfl)) ((hat i).trans (if_pos rfl)) ?_
  intro j hj
  rw [hat, hgone, if_neg hj, if_neg hj]

section Shift

variable {hole : Nat}

@[simp] theorem length_shift (t : Table w V) (hole i : Nat) : (t.shift hole i).length = t.length := by
  simp [shift]

theorem shift_eq (h : t.slot? i = some e) :
    t.shift hole i = (t.fill hole e.key (some e.value)).vacate i := by
  unfold shift
  rw [key_of_slot? h, value?_of_slot? h]

theorem Aligned.shift (ha : t.Aligned) (h : t.slot? i = some e) (hole : Nat) :
    (t.shift hole i).Aligned := by
  rw [shift_eq h]
  exact (ha.fill_some hole (nonnull_of_slot? h) e.value).vacate i

theorem slot?_shift (ha : t.Aligned) (hh : hole < t.length) (h : t.slot? i = some e) (j : Nat) :
    (t.shift hole i).slot? j =
      if i = j then none else if hole = j then some e else t.slot? j := by
  have hi := lt_length_of_slot? h
  rw [shift_eq h, slot?_vacate (by rwa [length_fill]), slot?_fill ha hh (nonnull_of_slot? h)]

theorem entries_shift (ha : t.Aligned) (hh : hole < t.length) (hv : t.slot? hole = none)
    (h : t.slot? i = some e) : (t.shift hole i).entries.Perm t.entries := by
  have hk := nonnull_of_slot? h
  have hne : hole ≠ i := by
    rintro rfl
    rw [hv] at h
    cases h
  have hat : (t.fill hole e.key (some e.value)).slot? i = some e := by
    rw [slot?_fill ha hh hk, if_neg hne, h]
  rw [shift_eq h]
  exact ((entries_vacate hat).symm.trans (entries_fill ha hh hv hk e.value)).cons_inv

end Shift

/-- The slot `p` places on from `start`, around the end. -/
def onward? (t : Table w V) (start p : Nat) : Option (Entry w V) :=
  t.slot? ((start + p) % t.length)

/-- The entries met from offset `p` on, on the way once around from `start`. -/
def tour (t : Table w V) (start p : Nat) : List (Entry w V) :=
  (List.range' p (t.length - p)).filterMap (t.onward? start)

variable {start p : Nat}

theorem tour_of_le (h : t.length ≤ p) : t.tour start p = [] := by
  simp [tour, Nat.sub_eq_zero_of_le h]

theorem tour_of_some (hp : p < t.length) {e : Entry w V} (h : t.onward? start p = some e) :
    t.tour start p = e :: t.tour start (p + 1) := by
  have hn : t.length - p = (t.length - (p + 1)) + 1 := by omega
  simp [tour, hn, List.range'_succ, h]

theorem entries_eq_filterMap (t : Table w V) :
    t.entries = (List.range t.length).filterMap t.slot? := rfl

theorem entries_ascending (t : Table w V) :
    ∃ slots : List Nat, slots.Pairwise (· < ·) ∧ slots.map t.slot? = t.entries.map some := by
  refine ⟨(List.range t.length).filter fun i => (t.slot? i).isSome,
    List.pairwise_lt_range.filter _, ?_⟩
  rw [entries_eq_filterMap, List.map_filterMap_some_eq_filter_map_isSome, List.filter_map]
  rfl

theorem tour_zero_perm (hs : start < t.length) : (t.tour start 0).Perm t.entries := by
  have h := (range_map_offset_perm hs).filterMap t.slot?
  rw [List.filterMap_map, ← entries_eq_filterMap, List.range_eq_range'] at h
  exact h

theorem tour_zero_isRotated (t : Table w V) (start : Nat) : t.entries ~r t.tour start 0 := by
  have hr : List.range t.length ~r (List.range t.length).map fun p => (start + p) % t.length :=
    ⟨start, (range_map_offset_eq_rotate _ _).symm⟩
  have h := isRotated_filterMap hr t.slot?
  rw [List.filterMap_map, ← entries_eq_filterMap, List.range_eq_range'] at h
  exact h

theorem tour_split (hp : p ≤ t.length) :
    t.tour start 0 = (List.range p).filterMap (t.onward? start) ++ t.tour start p := by
  have hn : t.length = p + (t.length - p) := by omega
  rw [tour, tour, ← List.filterMap_append, Nat.sub_zero]
  conv_lhs => rw [hn]
  rw [List.range_eq_range', ← List.range'_append_1, Nat.zero_add]

/-- What is met before an offset stays out of a comparison of two tables that agree up to there. -/
theorem tour_perm_append {t' : Table w V} (extra : List (Entry w V)) (hs : start < t.length)
    (hp : p ≤ t.length) (hl : t'.length = t.length)
    (hagree : ∀ q, q < p → t'.onward? start q = t.onward? start q)
    (hent : t.entries.Perm (extra ++ t'.entries)) :
    (t.tour start p).Perm (extra ++ t'.tour start p) := by
  have hpre : (List.range p).filterMap (t'.onward? start) =
      (List.range p).filterMap (t.onward? start) :=
    List.filterMap_congr fun q hq => hagree q (List.mem_range.mp hq)
  have h : (t.tour start 0).Perm (extra ++ t'.tour start 0) :=
    ((tour_zero_perm hs).trans hent).trans
      ((tour_zero_perm (by omega : start < t'.length)).symm.append_left extra)
  rw [tour_split hp, tour_split (by omega : p ≤ t'.length), hpre] at h
  have hswap := h.trans (List.perm_append_comm_assoc extra _ _)
  exact (List.perm_append_left_iff _).mp hswap

end Table

end LexBase
