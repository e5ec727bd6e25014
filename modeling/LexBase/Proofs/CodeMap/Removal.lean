import LexBase.Proofs.CodeMap.Contents
import LexBase.Proofs.CodeMap.Sound
import LexBase.Proofs.Table.Shift

/-!
# Removal from a map

A removal needs nothing of a map but its layout. It takes out the one entry, keeps the layout and
reports how many entries it moved.
-/

namespace LexBase

set_option autoImplicit false

variable {w : Width} {V : Type}

namespace CodeMap

variable {m : CodeMap w V} {i : Nat} {e : Entry w V} {t : Table w V}

theorem Sound.table_valid (h : m.Sound) : m.table.Valid where
  aligned := .of_getElem h.sizes_eq h.none_iff
  distinct := Table.nodup_keys_iff.mpr h.distinct
  reached := h.reached
  counted := by
    rw [Table.entries_eq_filterMap, List.length_filterMap_eq_countP]
    exact h.size_eq

theorem Sound.of_table (h : m.Sound) (ht : t.Valid) (hl : t.length = m.table.length)
    (hc : t.count ≤ m.table.count) : ({ m with table := t } : CodeMap w V).Sound where
  length_eq := hl.trans h.length_eq
  two_le := hl ▸ h.two_le
  sizes_eq := ht.aligned.size_eq
  none_iff := ht.aligned.getElem_eq_none_iff
  nonnull _ _ := Table.nonnull_of_slot?
  distinct := Table.nodup_keys_iff.mp ht.distinct
  size_eq := by
    rw [size, ht.counted, Table.entries_eq_filterMap, List.length_filterMap_eq_countP]
  size_le := Nat.le_trans hc h.size_le
  threshold_lt := hl ▸ h.threshold_lt
  vacant := by
    have hle : t.count ≤ m.sizing.threshold := Nat.le_trans hc h.size_le
    have hlt := h.threshold_lt
    apply Table.hasVacancy_of_lt
    rw [← ht.counted, hl]
    omega
  reached := ht.reached

/-- The map `m'` is `m` without the entry `e` of slot `i`. -/
structure Drops (m : CodeMap w V) (i : Nat) (e : Entry w V) (m' : CodeMap w V) (shifted : Nat) :
    Prop where
  sound : m'.Sound
  table : m.table.Removes i e m'.table shifted
  stored : ∀ key, m'.stored? key = if key = e.key then none else m.stored? key
  size_eq : m.size = m'.size + 1
  sizing_eq : m'.sizing = m.sizing
  default_eq : m'.default = m.default

theorem find?_of_perm (hv : m.table.Valid) (hvac : m.table.HasVacancy) (ht : t.Valid)
    (hvac' : t.HasVacancy) (hp : m.table.entries.Perm (e :: t.entries)) (key : CodeUnit w) :
    t.find? key = if key = e.key then none else m.table.find? key := by
  apply Option.ext
  intro v
  rw [ht.find?_eq_some_iff hvac', mem_rest_iff (.of_arranged hv.toArranged) hp]
  by_cases hk : key = e.key
  · rw [if_pos hk]
    constructor
    · rintro ⟨hne, _⟩
      exact absurd hk hne
    · intro hf
      cases hf
  · rw [if_neg hk, hv.find?_eq_some_iff hvac]
    exact and_iff_right hk

theorem Sound.drops (h : m.Sound) (he : m.table.slot? i = some e) {shifted : Nat}
    (hr : m.table.Removes i e t shifted) : m.Drops i e { m with table := t } shifted := by
  have hv := h.table_valid
  have hcount : m.table.count = t.count + 1 := by
    rw [hv.counted, hr.valid.counted, hr.perm.length_eq, List.length_cons]
  have hsound := h.of_table hr.valid hr.length_eq (by omega)
  refine ⟨hsound, hr, ?_, hcount, rfl, rfl⟩
  intro key
  unfold stored?
  by_cases hn : key.isNull = true
  · have hne : key ≠ e.key := by
      rintro rfl
      exact h.nonnull i e he ((CodeUnit.isNull_iff _).mp hn)
    rw [if_pos hn, if_neg hne, if_pos hn]
  · rw [if_neg hn, if_neg hn, find?_of_perm hv h.vacant hr.valid hsound.vacant hr.perm]

/-- A removal at a held slot closes the gap; at any other slot nothing happens. -/
theorem Sound.removeSlot_drops (h : m.Sound) (i : Nat) :
    (m.table.length ≤ i ∨ m.table.slot? i = none → m.removeSlot i = (none, m)) ∧
    ∀ e, m.table.slot? i = some e → ∃ m' shifted,
      m.removeSlot i = (some (e.value, .removed shifted m'.size), m') ∧ m.Drops i e m' shifted := by
  constructor
  · intro hvacant
    have hnone : m.table.slot? i = none := hvacant.elim Table.slot?_eq_none_of_le id
    exact removeSlot_of_none h.table_valid.aligned hnone
  · intro e he
    obtain ⟨t, shifted, hrem, hr⟩ := h.table_valid.removes h.vacant he
    refine ⟨{ m with table := t }, shifted, ?_, h.drops he hr⟩
    rw [removeSlot_eq, hrem]
    rfl

/-- Two keys with one home. -/
def neighbours : CodeMap .byte Nat := (((CodeMap.empty 0).insert 7 70).map.insert 11 110).map

theorem neighbours_drops : neighbours.Sound ∧ neighbours.table.slot? 4 = some ⟨7, 70⟩ ∧
    ∃ m', neighbours.removeSlot 4 = (some (70, .removed 1 1), m') ∧
      neighbours.Drops 4 ⟨7, 70⟩ m' 1 := by
  have hvalid : neighbours.Valid := ((Constructed.empty 0).valid.insert 7 70).insert 11 110
  have hslot : neighbours.table.slot? 4 = some ⟨7, 70⟩ := by decide +kernel
  have hanswer : (neighbours.removeSlot 4).1 = some (70, .removed 1 1) := by decide +kernel
  refine ⟨hvalid.sound, hslot, ?_⟩
  obtain ⟨m', shifted, hr, hd⟩ := (hvalid.sound.removeSlot_drops 4).2 _ hslot
  rw [hr] at hanswer
  obtain ⟨rfl, hsize⟩ := TableEvent.removed.inj (Prod.mk.inj (Option.some.inj hanswer)).2
  rw [hsize] at hr
  exact ⟨m', hr, hd⟩

end CodeMap

end LexBase
