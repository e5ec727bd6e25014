import LexBase.Proofs.CodeMap.Valid

/-!
# What a map stands for

The contents of a map are a finite map on the non-null keys, an optional value of the null key
beside it, and the default. A valid map represents its contents if each entry of the table is
bound there and the other way round; how the entries are laid out does not matter.
-/

namespace LexBase

set_option autoImplicit false

variable {w : Width} {V : Type}

/-- The non-null units in ascending order. -/
def units (w : Width) : List (CodeUnit w) :=
  (List.range' 1 w.domain).map (BitVec.ofNat w.bits)

structure Contents (w : Width) (V : Type) where
  bound : CodeUnit w → Option V
  null : Option V
  default : V

namespace Contents

def blank (d : V) : Contents w V := ⟨fun _ => none, none, d⟩

variable (c : Contents w V) (key : CodeUnit w)

def stored : Option V := if key = .null w then c.null else c.bound key

def bind (value : V) : Contents w V :=
  if key = .null w then { c with null := some value }
  else { c with bound := fun k => if k = key then some value else c.bound k }

def release : Contents w V :=
  if key = .null w then { c with null := none }
  else { c with bound := fun k => if k = key then none else c.bound k }

def members : List (CodeUnit w) := (units w).filter fun u => (c.bound u).isSome

def entries : List (Entry w V) := (units w).filterMap fun u => (c.bound u).map fun v => ⟨u, v⟩

def size : Nat := c.members.length

section Presence

variable [BEq V]

def presentNull : Option V := c.null.filter (· != c.default)

def present : Option V := if key = .null w then c.presentNull else c.bound key

def keys : List (CodeUnit w) := c.members ++ if c.presentNull.isSome then [.null w] else []

def nullEntries : List (Entry w V) := c.presentNull.toList.map fun v => ⟨.null w, v⟩

end Presence

end Contents

theorem toNat_ofNat_of_mem {n : Nat} (h : n ∈ List.range' 1 w.domain) :
    (BitVec.ofNat w.bits n).toNat = n := by
  have hlt := (List.mem_range'_1.mp h).2
  have hbits : n < Nat.pow 2 w.bits := by
    have hpos : 0 < Nat.pow 2 w.bits := Nat.two_pow_pos w.bits
    unfold Width.domain at hlt
    omega
  exact (BitVec.toNat_ofNat n w.bits).trans (Nat.mod_eq_of_lt hbits)

theorem Contents.stored_release (c : Contents w V) (key k : CodeUnit w) :
    (c.release key).stored k = if k = key then none else c.stored k := by
  unfold release stored
  by_cases hkey : key = .null w
  · by_cases hk : k = .null w
    · simp [hkey, hk]
    · simp [hkey, hk]
  · by_cases hk : k = .null w
    · have hne : CodeUnit.null w ≠ key := fun h => hkey h.symm
      simp [hkey, hk, hne]
    · simp [hkey, hk]

theorem mem_units {u : CodeUnit w} : u ∈ units w ↔ u ≠ .null w := by
  unfold units
  rw [List.mem_map]
  constructor
  · rintro ⟨n, hn, rfl⟩ hnull
    have hzero := congrArg BitVec.toNat hnull
    rw [toNat_ofNat_of_mem hn] at hzero
    rw [hzero, List.mem_range'_1, CodeUnit.null, BitVec.ofNat_eq_ofNat, BitVec.toNat_zero] at hn
    omega
  · intro hu
    have hpos := CodeUnit.toNat_pos hu
    have hle := CodeUnit.toNat_le_domain u
    have hmem : u.toNat ∈ List.range' 1 w.domain := List.mem_range'_1.mpr ⟨hpos, by omega⟩
    exact ⟨u.toNat, hmem, CodeUnit.toNat_injective (toNat_ofNat_of_mem hmem)⟩

theorem units_ascending (w : Width) : (units w).Pairwise fun u v => u.toNat < v.toNat := by
  unfold units
  rw [List.pairwise_map]
  apply (List.pairwise_lt_range' 1).imp_of_mem
  intro i j hi hj hij
  rwa [toNat_ofNat_of_mem hi, toNat_ofNat_of_mem hj]

theorem Contents.members_ascending (c : Contents w V) :
    c.members.Pairwise fun u v => u.toNat < v.toNat :=
  (units_ascending w).filter _

theorem Contents.entries_map_key (c : Contents w V) : c.entries.map Entry.key = c.members := by
  unfold entries members
  generalize units w = us
  induction us with
  | nil => rfl
  | cons u us ih => cases hb : c.bound u <;> simp [hb, ih]

theorem Contents.entries_distinct (c : Contents w V) : (c.entries.map Entry.key).Nodup := by
  rw [c.entries_map_key]
  apply c.members_ascending.imp
  rintro u v huv rfl
  exact Nat.lt_irrefl _ huv

theorem mem_rest_iff {es rest : List (Entry w V)} {e : Entry w V} (hp : Placeable es)
    (h : es.Perm (e :: rest)) (f : Entry w V) : f ∈ rest ↔ f.key ≠ e.key ∧ f ∈ es := by
  have hhead := (hp.perm h).head_not_mem
  rw [h.mem_iff, List.mem_cons]
  constructor
  · intro hf
    refine ⟨?_, Or.inr hf⟩
    intro hk
    exact hhead (hk ▸ List.mem_map_of_mem hf)
  · rintro ⟨hk, rfl | hf⟩
    · exact absurd rfl hk
    · exact hf

namespace CodeMap

structure Represents (m : CodeMap w V) (c : Contents w V) : Prop where
  valid : m.Valid
  mem_iff : ∀ e, e ∈ m.table.entries ↔ c.bound e.key = some e.value
  null_eq : m.nullValue = c.null
  default_eq : m.default = c.default

variable {m : CodeMap w V} {c : Contents w V} {key : CodeUnit w} {value : V} {e : Entry w V}

def contents (m : CodeMap w V) : Contents w V :=
  ⟨m.table.find?, m.nullValue, m.default⟩

theorem Valid.represents (h : m.Valid) : m.Represents m.contents :=
  ⟨h, fun _ => (h.table.find?_eq_some_iff h.hasVacancy).symm, rfl, rfl⟩

theorem Constructed.represents (h : m.Constructed) : m.Represents (.blank m.default) := by
  refine ⟨h.valid, ?_, ?_, rfl⟩
  all_goals cases h with
    | empty d => simp [CodeMap.empty, withSizing, Contents.blank]
    | withCapacity hm _ =>
      obtain ⟨lf, _, rfl⟩ := withCapacity_ok hm
      simp [withSizing, Contents.blank]

namespace Represents

theorem bound_null (h : m.Represents c) : c.bound (.null w) = none := by
  cases hb : c.bound (.null w) with
  | none => rfl
  | some v => exact absurd rfl (h.valid.table.nonnull ⟨.null w, v⟩ ((h.mem_iff _).mpr hb))

theorem find?_eq (h : m.Represents c) (key : CodeUnit w) : m.table.find? key = c.bound key := by
  apply Option.ext
  intro v
  rw [h.valid.table.find?_eq_some_iff h.valid.hasVacancy]
  exact h.mem_iff ⟨key, v⟩

theorem stored?_eq (h : m.Represents c) (key : CodeUnit w) : m.stored? key = c.stored key := by
  unfold stored? Contents.stored
  rw [h.find?_eq, h.null_eq]
  simp only [CodeUnit.isNull_iff]

theorem get_eq (h : m.Represents c) (key : CodeUnit w) :
    m.get key = (c.stored key).getD c.default := by
  rw [get, h.stored?_eq, h.default_eq]

theorem entries_perm (h : m.Represents c) : m.table.entries.Perm c.entries := by
  apply (List.perm_ext_iff_of_nodup h.valid.table.distinct.of_map
    c.entries_distinct.of_map).mpr
  intro e
  rw [h.mem_iff, Contents.entries, List.mem_filterMap]
  constructor
  · intro hb
    refine ⟨e.key, mem_units.mpr ?_, by rw [hb]; rfl⟩
    intro hk
    rw [hk, h.bound_null] at hb
    simp at hb
  · rintro ⟨u, _, hu⟩
    obtain ⟨v, hv, rfl⟩ := Option.map_eq_some_iff.mp hu
    exact hv

theorem keys_perm (h : m.Represents c) : (m.table.entries.map Entry.key).Perm c.members := by
  rw [← c.entries_map_key]
  exact h.entries_perm.map _

theorem size_eq (h : m.Represents c) : m.size = c.size := by
  rw [size, h.valid.table.counted, Contents.size, ← h.keys_perm.length_eq, List.length_map]

section Presence

variable [BEq V]

theorem presentNull_eq (h : m.Represents c) : m.presentNull = c.presentNull := by
  rw [presentNull, Contents.presentNull, h.null_eq, h.default_eq]

theorem contains_eq (h : m.Represents c) (key : CodeUnit w) :
    m.contains key = (c.present key).isSome := by
  have htable : m.table.contains key = (c.bound key).isSome := by
    rw [Bool.eq_iff_iff, h.valid.table.contains_iff h.valid.hasVacancy, Option.isSome_iff_exists]
    constructor
    · rintro ⟨e, he, rfl⟩
      exact ⟨e.value, (h.mem_iff e).mp he⟩
    · rintro ⟨v, hv⟩
      exact ⟨⟨key, v⟩, (h.mem_iff _).mpr hv, rfl⟩
  unfold contains Contents.present
  rw [h.presentNull_eq, htable]
  simp only [CodeUnit.isNull_iff]
  split <;> rfl

theorem mergeSort_ascending (us : List (CodeUnit w)) :
    (us.mergeSort (·.toNat ≤ ·.toNat)).Pairwise fun u v => u.toNat ≤ v.toNat := by
  have hs : (us.mergeSort (·.toNat ≤ ·.toNat)).Pairwise
      fun u v => decide (u.toNat ≤ v.toNat) = true := by
    apply List.pairwise_mergeSort
    · intro u v x huv hvx
      exact decide_eq_true (Nat.le_trans (of_decide_eq_true huv) (of_decide_eq_true hvx))
    · intro u v
      simpa using Nat.le_total u.toNat v.toNat
  exact hs.imp fun huv => of_decide_eq_true huv

/-- Both lists are sorted, so they are equal if they have the same elements. -/
theorem keys_eq (h : m.Represents c) : m.keys = c.keys := by
  have hsort := List.mergeSort_perm (m.table.entries.map Entry.key) (·.toNat ≤ ·.toNat)
  have hp := hsort.trans h.keys_perm
  have hmembers := c.members_ascending.imp Nat.le_of_lt
  unfold keys Contents.keys
  rw [h.presentNull_eq, h.valid.table.aligned.keys_eq]
  congr 1
  refine List.Perm.eq_of_pairwise ?_ (mergeSort_ascending _) hmembers hp
  intro u v _ _ huv hvu
  exact CodeUnit.toNat_injective (Nat.le_antisymm huv hvu)

end Presence

section Changes

theorem with_null (h : m.Represents c) (nullValue : Option V) :
    ({ m with nullValue := nullValue } : CodeMap w V).Represents { c with null := nullValue } :=
  ⟨h.valid.with_null nullValue, h.mem_iff, rfl, h.default_eq⟩

theorem mem_cons_iff (h : m.Represents c) {rest : List (Entry w V)}
    (hrest : ∀ f, f ∈ rest ↔ f.key ≠ key ∧ f ∈ m.table.entries) (f : Entry w V) :
    f ∈ ⟨key, value⟩ :: rest ↔
      (if f.key = key then some value else c.bound f.key) = some f.value := by
  rw [List.mem_cons, hrest, h.mem_iff]
  split
  · next hk =>
    obtain ⟨k, v⟩ := f
    obtain rfl : k = key := hk
    simp [eq_comm]
  · next hk =>
    constructor
    · rintro (rfl | ⟨_, hb⟩)
      · exact absurd rfl hk
      · exact hb
    · intro hb
      exact Or.inr ⟨hk, hb⟩

theorem bind_of_mem (h : m.Represents c) {t : Table w V} {sizing : Sizing} (hk : key ≠ .null w)
    (hv : (⟨t, sizing, m.nullValue, m.default⟩ : CodeMap w V).Valid) {rest : List (Entry w V)}
    (hp : t.entries.Perm (⟨key, value⟩ :: rest))
    (hrest : ∀ f, f ∈ rest ↔ f.key ≠ key ∧ f ∈ m.table.entries) :
    (⟨t, sizing, m.nullValue, m.default⟩ : CodeMap w V).Represents (c.bind key value) := by
  rw [Contents.bind, if_neg hk]
  exact ⟨hv, fun f => hp.mem_iff.trans (h.mem_cons_iff hrest f), h.null_eq, h.default_eq⟩

theorem mem_absent (h : m.Represents c) {i : Nat} (hend : m.table.EndsVacant key i)
    (f : Entry w V) :
    f ∈ m.table.entries ↔ f.key ≠ key ∧ f ∈ m.table.entries :=
  ⟨fun hf => ⟨hend.absent h.valid.table.toArranged f hf, hf⟩, And.right⟩

theorem bound_absent (h : m.Represents c) {i : Nat} (hend : m.table.EndsVacant key i) :
    c.bound key = none := by
  cases hb : c.bound key with
  | none => rfl
  | some v => exact absurd rfl (hend.absent h.valid.table.toArranged ⟨key, v⟩ ((h.mem_iff _).mpr hb))

theorem insert (h : m.Represents c) (key : CodeUnit w) (value : V) :
    (m.insert key value).previous = c.stored key ∧
      (m.insert key value).map.Represents (c.bind key value) := by
  have hi := h.valid.inserts key value
  have hv := h.valid.insert key value
  generalize m.insert key value = ins at hi hv ⊢
  unfold Contents.stored
  cases hi with
  | beside hk =>
    rw [if_pos hk, Contents.bind, if_pos hk]
    exact ⟨h.null_eq, h.with_null (some value)⟩
  | @replacing i e hk he hkey =>
    rw [if_neg hk]
    obtain ⟨rest, hp, hp'⟩ := Table.entries_store h.valid.table.aligned he value
    subst hkey
    refine ⟨((h.mem_iff e).mp (Table.mem_entries.mpr ⟨i, he⟩)).symm, ?_⟩
    exact h.bind_of_mem hk hv hp' (mem_rest_iff (.of_arranged h.valid.table.toArranged) hp)
  | @fresh i hk hend _ =>
    rw [if_neg hk]
    refine ⟨(h.bound_absent hend).symm, ?_⟩
    have hp := hend.entries_occupy h.valid.table.aligned hk value
    exact h.bind_of_mem hk hv hp (h.mem_absent hend)
  | @growing i hk hend hfull =>
    rw [if_neg hk]
    refine ⟨(h.bound_absent hend).symm, ?_⟩
    have hover : (m.occupy i ⟨key, value⟩).Overfull := h.valid.overfull hk hend hfull
    have hp := hend.entries_occupy h.valid.table.aligned hk value
    exact h.bind_of_mem hk hv (hover.rehash_stores.perm.trans hp) (h.mem_absent hend)

theorem release_slot (h : m.Represents c) {t : Table w V}
    (hp : m.table.entries.Perm (e :: t.entries))
    (hv : ({ m with table := t } : CodeMap w V).Valid) :
    ({ m with table := t } : CodeMap w V).Represents (c.release e.key) := by
  have hplace := Placeable.of_arranged h.valid.table.toArranged
  have hk : e.key ≠ .null w := (hplace.perm hp).head_nonnull
  rw [Contents.release, if_neg hk]
  refine ⟨hv, ?_, h.null_eq, h.default_eq⟩
  intro f
  rw [mem_rest_iff hplace hp, h.mem_iff]
  by_cases hf : f.key = e.key
  · simp [hf]
  · simp [hf]

theorem release_null (h : m.Represents c) :
    ({ m with nullValue := none } : CodeMap w V).Represents (c.release (.null w)) := by
  rw [Contents.release, if_pos rfl]
  exact h.with_null none

end Changes

end Represents

end CodeMap

end LexBase
