import LexBase.CodeMap.Basic
import LexBase.Proofs.Sizing
import LexBase.Proofs.Table.Removal
import Mathlib.Data.List.Perm.Subperm

/-!
# Valid maps

A map is valid if its table is, if the table has the length of its sizing, and if it holds no more
entries than the threshold, which stays below the length. Every call keeps a map valid: an
insertion writes where its probe ends and, past the threshold, moves everything into a table with
room for it; a removal closes its gap. There are never more entries than non-null keys, which is
why a sizing for the whole domain always has room.
-/

namespace LexBase

set_option autoImplicit false

variable {w : Width} {V : Type}

theorem CodeUnit.toNat_pos {u : CodeUnit w} (h : u ≠ .null w) : 0 < u.toNat := by
  apply Nat.pos_of_ne_zero
  intro hz
  exact h (toNat_injective (by rw [hz, null, BitVec.ofNat_eq_ofNat, BitVec.toNat_zero]))

theorem CodeUnit.toNat_le_domain (u : CodeUnit w) : u.toNat ≤ w.domain := by
  have hlt : u.toNat < Nat.pow 2 w.bits := u.isLt
  unfold Width.domain
  omega

theorem Placeable.length_le_domain {es : List (Entry w V)} (h : Placeable es) :
    es.length ≤ w.domain := by
  have hnd : (es.map fun e => e.key.toNat).Nodup := by
    have hmap := h.distinct.map (f := BitVec.toNat) fun _ _ => CodeUnit.toNat_injective
    rwa [List.map_map] at hmap
  have hsub : (es.map fun e => e.key.toNat) ⊆ List.range' 1 w.domain := by
    intro x hx
    obtain ⟨e, he, rfl⟩ := List.mem_map.mp hx
    have hpos := CodeUnit.toNat_pos (h.nonnull e he)
    have hle := CodeUnit.toNat_le_domain e.key
    rw [List.mem_range'_1]
    omega
  simpa using hnd.length_le_of_subset hsub

namespace CodeMap

variable {m : CodeMap w V} {key : CodeUnit w} {value : V}

structure Valid (m : CodeMap w V) : Prop where
  table : m.table.Valid
  length_eq : m.table.length = m.sizing.length
  order_pos : 0 < m.sizing.order
  size_le : m.size ≤ m.sizing.threshold
  admissible : m.sizing.loadFactor.Admissible w

theorem Valid.entries_lt (h : m.Valid) : m.table.entries.length < m.table.length := by
  rw [← h.table.counted, h.length_eq]
  exact Nat.lt_of_le_of_lt h.size_le m.sizing.threshold_lt

theorem Valid.hasVacancy (h : m.Valid) : m.table.HasVacancy :=
  Table.hasVacancy_of_lt h.entries_lt

theorem Valid.of_table (h : m.Valid) {t : Table w V} (ht : t.Valid)
    (hl : t.length = m.table.length) (hc : t.count ≤ m.table.count) (nullValue : Option V) :
    (⟨t, m.sizing, nullValue, m.default⟩ : CodeMap w V).Valid where
  table := ht
  length_eq := hl.trans h.length_eq
  order_pos := h.order_pos
  size_le := Nat.le_trans hc h.size_le
  admissible := h.admissible

theorem withSizing_valid {lf : LoadFactor} (h : lf.Admissible w) (target : Nat) (d : V) :
    (withSizing (.forTarget target lf w.domain) d : CodeMap w V).Valid := by
  have hs := Sizing.forTarget_suffices h target
  exact ⟨.empty _, Table.length_empty _, hs.order_pos, Nat.zero_le _, hs.loadFactor_eq ▸ h⟩

/-- The maps that the constructors yield, with a load factor small tables can be sized for. -/
inductive Constructed : CodeMap w V → Prop where
  | empty (d : V) : Constructed (.empty d)
  | withCapacity {capacity : Nat} {loadFactor : Single} {d : V} {m : CodeMap w V} :
      CodeMap.withCapacity capacity loadFactor d = .ok m → m.sizing.loadFactor.Admissible w →
      Constructed m

theorem withCapacity_ok {capacity : Nat} {loadFactor : Single} {d : V}
    (h : withCapacity capacity loadFactor d = .ok m) :
    ∃ lf, Sizing.accept capacity loadFactor = .ok lf ∧
      m = withSizing (.forTarget capacity lf w.domain) d := by
  unfold withCapacity at h
  cases ha : Sizing.accept capacity loadFactor with
  | error err =>
    rw [ha] at h
    cases h
  | ok lf =>
    rw [ha] at h
    cases h
    exact ⟨lf, rfl, rfl⟩

theorem Constructed.valid (h : m.Constructed) : m.Valid := by
  cases h with
  | empty d => exact withSizing_valid (LoadFactor.standard_admissible w) _ d
  | withCapacity hm hadm =>
    obtain ⟨lf, _, rfl⟩ := withCapacity_ok hm
    exact withSizing_valid hadm _ _

section Insert

/-- In the middle of an insertion: one entry more than the threshold. -/
structure Overfull (m : CodeMap w V) : Prop where
  table : m.table.Valid
  size_eq : m.size = m.sizing.threshold + 1
  admissible : m.sizing.loadFactor.Admissible w

def nextSizing (m : CodeMap w V) : Sizing :=
  .forTarget m.sizing.nextTarget m.sizing.loadFactor w.domain

theorem grow_map (m : CodeMap w V) :
    m.grow.1 = ⟨(m.table.rehash m.nextSizing.length).1, m.nextSizing, m.nullValue, m.default⟩ := rfl

/-- A growth adds no entry. -/
theorem size_grow (m : CodeMap w V) : m.grow.1.size = m.size :=
  Table.rehash_count m.table m.nextSizing.length

theorem Overfull.entries_le (h : m.Overfull) :
    m.table.entries.length ≤ m.nextSizing.threshold := by
  refine Nat.le_trans ?_ (Sizing.forTarget_suffices h.admissible m.sizing.nextTarget).le_threshold
  have hdom := (Placeable.of_arranged h.table.toArranged).length_le_domain
  have hsize := h.size_eq
  rw [size, h.table.counted] at hsize
  unfold Sizing.clamp Sizing.nextTarget
  omega

theorem Overfull.rehash_stores (h : m.Overfull) :
    (m.table.rehash m.nextSizing.length).1.Stores m.nextSizing.length m.table.entries :=
  Table.rehash_stores h.table.aligned (.of_arranged h.table.toArranged)
    (Nat.lt_of_le_of_lt h.entries_le m.nextSizing.threshold_lt)

theorem Overfull.rehash_valid (h : m.Overfull) :
    (m.table.rehash m.nextSizing.length).1.Valid := by
  refine ⟨h.rehash_stores.arranged, ?_⟩
  rw [Table.rehash_count, h.rehash_stores.perm.length_eq, h.table.counted]

theorem Overfull.grow_valid (h : m.Overfull) : m.grow.1.Valid := by
  have hs := Sizing.forTarget_suffices h.admissible m.sizing.nextTarget
  have hr := h.rehash_stores
  rw [grow_map]
  refine ⟨h.rehash_valid, hr.length_eq, hs.order_pos, ?_, ?_⟩
  · have hle := h.entries_le
    rw [← h.table.counted] at hle
    exact (size_grow m).trans_le hle
  · rw [nextSizing, hs.loadFactor_eq]
    exact h.admissible

def occupy (m : CodeMap w V) (i : Nat) (e : Entry w V) : CodeMap w V :=
  { m with table := m.table.occupy i e }

@[simp] theorem table_occupy (m : CodeMap w V) (i : Nat) (e : Entry w V) :
    (m.occupy i e).table = m.table.occupy i e := rfl

/-- What an insertion does: it goes beside the table, over an entry, or into a vacant slot. -/
inductive Inserts (m : CodeMap w V) (key : CodeUnit w) (value : V) : Insertion w V → Prop where
  | beside : key = .null w →
      Inserts m key value ⟨m.nullValue, { m with nullValue := some value }, none⟩
  | replacing {i : Nat} {e : Entry w V} :
      key ≠ .null w → m.table.slot? i = some e → e.key = key →
      Inserts m key value ⟨some e.value, { m with table := m.table.store i value }, none⟩
  | fresh {i : Nat} :
      key ≠ .null w → m.table.EndsVacant key i → m.size + 1 ≤ m.sizing.threshold →
      Inserts m key value ⟨none, m.occupy i ⟨key, value⟩, none⟩
  | growing {i : Nat} :
      key ≠ .null w → m.table.EndsVacant key i → m.size = m.sizing.threshold →
      Inserts m key value
        ⟨none, (m.occupy i ⟨key, value⟩).grow.1, some (m.occupy i ⟨key, value⟩).grow.2⟩

theorem insert_of_null (hk : key = .null w) :
    m.insert key value = ⟨m.nullValue, { m with nullValue := some value }, none⟩ := by
  obtain ⟨table, sizing, nullValue, default⟩ := m
  simp only [insert]
  rw [if_pos ((CodeUnit.isNull_iff key).mpr hk)]

theorem insert_of_held {i : Nat} {e : Entry w V} (hk : key ≠ .null w)
    (hp : m.table.probe key = some (.held i)) (he : m.table.slot? i = some e) :
    m.insert key value =
      ⟨some e.value, { m with table := m.table.store i value }, none⟩ := by
  obtain ⟨table, sizing, nullValue, default⟩ := m
  simp only [insert]
  rw [if_neg fun hn => hk ((CodeUnit.isNull_iff key).mp hn), hp]
  exact congrArg (fun o => (⟨o, _, none⟩ : Insertion w V)) (Table.value?_of_slot? he)

theorem insert_of_vacant {i : Nat} (hk : key ≠ .null w)
    (hp : m.table.probe key = some (.vacant i)) :
    m.insert key value = growIfOver (m.occupy i ⟨key, value⟩) := by
  obtain ⟨table, sizing, nullValue, default⟩ := m
  simp only [insert]
  rw [if_neg fun hn => hk ((CodeUnit.isNull_iff key).mp hn), hp]
  rfl

theorem Valid.inserts (h : m.Valid) (key : CodeUnit w) (value : V) :
    m.Inserts key value (m.insert key value) := by
  by_cases hk : key = .null w
  · rw [insert_of_null hk]
    exact .beside hk
  rcases Table.probe_cases h.table.aligned h.hasVacancy key with ⟨i, e, hp, he, hkey⟩ | ⟨i, hp, hend⟩
  · rw [insert_of_held hk hp he]
    exact .replacing hk he hkey
  · have hle : m.table.count ≤ m.sizing.threshold := h.size_le
    have hcount : (m.occupy i ⟨key, value⟩).table.count = m.table.count + 1 := rfl
    rw [insert_of_vacant hk hp, growIfOver]
    split
    · next hover =>
      rw [hcount] at hover
      exact .growing hk hend (Nat.le_antisymm hle (Nat.lt_succ_iff.mp hover))
    · next hover =>
      rw [hcount] at hover
      exact .fresh hk hend (Nat.le_of_not_lt hover)

theorem Valid.occupy (h : m.Valid) {i : Nat} (hk : key ≠ .null w)
    (hend : m.table.EndsVacant key i) (value : V) : (m.table.occupy i ⟨key, value⟩).Valid :=
  h.table.occupy hend.lt_length hend.vacant hend.reaches hk (hend.absent h.table.toArranged)

theorem Valid.overfull (h : m.Valid) {i : Nat} (hk : key ≠ .null w)
    (hend : m.table.EndsVacant key i) (hfull : m.size = m.sizing.threshold) :
    (m.occupy i ⟨key, value⟩).Overfull :=
  ⟨h.occupy hk hend value, congrArg (· + 1) hfull, h.admissible⟩

theorem Valid.insert (h : m.Valid) (key : CodeUnit w) (value : V) :
    (m.insert key value).map.Valid := by
  have hi := h.inserts key value
  generalize m.insert key value = ins at hi ⊢
  cases hi with
  | beside _ => exact h.of_table h.table rfl (Nat.le_refl _) _
  | replacing _ he _ => exact h.of_table (h.table.store he value) rfl (Nat.le_refl _) _
  | fresh hk hend hle =>
    exact ⟨h.occupy hk hend value, (Table.length_occupy _ _ _).trans h.length_eq, h.order_pos, hle,
      h.admissible⟩
  | growing hk hend hfull => exact (h.overfull hk hend hfull).grow_valid

end Insert

section Remove

variable {i : Nat} {e : Entry w V}

theorem removeSlot_eq (m : CodeMap w V) (i : Nat) :
    m.removeSlot i = ((m.table.remove i).value.map fun v =>
      (v, .removed (m.table.remove i).shifted (m.table.remove i).table.count),
      { m with table := (m.table.remove i).table }) := by
  obtain ⟨table, sizing, nullValue, default⟩ := m
  rfl

theorem removeSlot_of_none (ha : m.table.Aligned) (hs : m.table.slot? i = none) :
    m.removeSlot i = (none, m) := by
  rw [removeSlot_eq, ha.remove_of_none hs]
  rfl

theorem Valid.removeSlot_onward (h : m.Valid) {start p : Nat} (hb : m.table.Based start)
    (hp : p < m.table.length) (he : m.table.onward? start p = some e) :
    ∃ t event, m.removeSlot ((start + p) % m.table.length) =
        (some (e.value, event), { m with table := t }) ∧
      m.table.Vacated start p e t ∧ ({ m with table := t } : CodeMap w V).Valid := by
  obtain ⟨t, k, hr, hv⟩ := h.table.remove hb hp he
  have hc : t.count ≤ m.table.count := by
    rw [hv.valid.counted, h.table.counted, hv.perm.length_eq, List.length_cons]
    omega
  refine ⟨t, .removed k t.count, ?_, hv, h.of_table hv.valid hv.length_eq hc _⟩
  rw [removeSlot_eq, hr]
  rfl

theorem Valid.removeSlot_some (h : m.Valid) (he : m.table.slot? i = some e) :
    ∃ t event, m.removeSlot i = (some (e.value, event), { m with table := t }) ∧
      m.table.entries.Perm (e :: t.entries) ∧ ({ m with table := t } : CodeMap w V).Valid := by
  obtain ⟨start, hb⟩ := h.hasVacancy.based
  have hi := Table.lt_length_of_slot? he
  have hat := add_distance hb.start_lt hi
  obtain ⟨t, event, hr, hv, hm⟩ := h.removeSlot_onward hb (p := distance m.table.length start i)
    (distance_lt (by omega)) (by rw [Table.onward?, hat, he])
  rw [hat] at hr
  exact ⟨t, event, hr, hv.perm, hm⟩

theorem Valid.size_removeSlot (h : m.Valid) (he : m.table.slot? i = some e) :
    (m.removeSlot i).2.size + 1 = m.size := by
  obtain ⟨t, event, hr, hp, hm⟩ := h.removeSlot_some he
  have hlen := hp.length_eq
  rw [List.length_cons, ← h.table.counted, ← hm.table.counted] at hlen
  rw [hr]
  exact hlen.symm

theorem Valid.removeSlot (h : m.Valid) (i : Nat) : (m.removeSlot i).2.Valid := by
  cases hs : m.table.slot? i with
  | none =>
    rw [removeSlot_of_none h.table.aligned hs]
    exact h
  | some e =>
    obtain ⟨t, event, hr, _, hm⟩ := h.removeSlot_some hs
    rw [hr]
    exact hm

theorem Valid.with_null (h : m.Valid) (nullValue : Option V) :
    ({ m with nullValue := nullValue } : CodeMap w V).Valid :=
  h.of_table h.table rfl (Nat.le_refl _) nullValue

end Remove

end CodeMap

end LexBase
