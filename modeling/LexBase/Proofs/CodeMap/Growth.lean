import LexBase.Proofs.CodeMap.Sound
import LexBase.Proofs.CodeMap.Turnover
import LexBase.Proofs.Table.Rehash

/-!
# Growth

A table grows when a fresh key takes the size past the threshold, and then to exactly twice its
length: the next target is at most twice the threshold, and with one key more than the threshold it
is above it. So the sizing is at all times the one for the largest number of entries there has been,
or for the requested capacity if that is larger. The grown table is as good as a fresh one: it holds
the slots that the same keys would come to hold one by one.
-/

namespace LexBase

set_option autoImplicit false

variable {w : Width} {V : Type}

namespace CodeMap

variable {m m' : CodeMap w V} {key : CodeUnit w} {lf : LoadFactor} {target : Nat}

theorem Overfull.size_le_domain (h : m.Overfull) : m.size ≤ w.domain := by
  rw [size, h.table.counted]
  exact (Placeable.of_arranged h.table.toArranged).length_le_domain

/-- The least sizing with room for one entry more than the threshold has twice the length. -/
theorem Overfull.forTarget_eq (h : m.Overfull) (hpos : 0 < m.sizing.threshold)
    (hlt : m.sizing.threshold < target) (hle : target ≤ 2 * m.sizing.threshold) :
    Sizing.forTarget target m.sizing.loadFactor w.domain =
      ⟨m.sizing.order + 1, m.sizing.loadFactor⟩ := by
  have hdom := h.size_le_domain
  have hsize := h.size_eq
  apply Sizing.forTarget_eq_double h.admissible rfl
  · unfold Sizing.clamp
    omega
  · unfold Sizing.clamp
    omega

theorem Overfull.nextSizing_eq (h : m.Overfull) (hpos : 0 < m.sizing.threshold) :
    m.nextSizing = ⟨m.sizing.order + 1, m.sizing.loadFactor⟩ := by
  apply h.forTarget_eq hpos
  · unfold Sizing.nextTarget
    omega
  · unfold Sizing.nextTarget
    omega

section Presence

variable [BEq V]

structure Exceeds (m : CodeMap w V) (key : CodeUnit w) : Prop where
  nonnull : key ≠ .null w
  fresh : m.contains key = false
  over_threshold : m.sizing.threshold < m.size + 1

theorem Valid.contains_slot (h : m.Valid) {i : Nat} {e : Entry w V}
    (he : m.table.slot? i = some e) : m.contains e.key = true := by
  have hmem : e ∈ m.table.entries := Table.mem_entries.mpr ⟨i, he⟩
  exact (h.contains_iff (Table.nonnull_of_slot? he)).mpr (List.mem_map_of_mem hmem)

theorem Valid.contains_of_endsVacant (h : m.Valid) (hk : key ≠ .null w) {i : Nat}
    (hend : m.table.EndsVacant key i) : m.contains key = false := by
  apply Bool.of_not_eq_true
  rw [h.contains_iff hk]
  intro hmem
  obtain ⟨e, he, hkey⟩ := List.mem_map.mp hmem
  exact hend.absent h.table.toArranged e he hkey

theorem Valid.insert_exceeds (h : m.Valid) (hx : m.Exceeds key) (value : V) :
    ∃ i, m.table.EndsVacant key i ∧ (m.occupy i ⟨key, value⟩).Overfull ∧
      m.insert key value =
        ⟨none, (m.occupy i ⟨key, value⟩).grow.1, some (m.occupy i ⟨key, value⟩).grow.2⟩ := by
  have hi := h.inserts key value
  generalize m.insert key value = ins at hi ⊢
  cases hi with
  | beside hk => exact absurd hk hx.nonnull
  | replacing _ he hkey =>
    have hold := h.contains_slot he
    rw [hkey, hx.fresh] at hold
    cases hold
  | fresh _ _ hle => exact absurd hx.over_threshold (Nat.not_lt_of_le hle)
  | growing hk hend hfull => exact ⟨_, hend, h.overfull hk hend hfull, rfl⟩

theorem Valid.insert_stays (h : m.Valid) (hx : ¬ m.Exceeds key) (value : V) :
    (m.insert key value).growth = none ∧ (m.insert key value).map.sizing = m.sizing := by
  have hi := h.inserts key value
  generalize m.insert key value = ins at hi ⊢
  cases hi with
  | beside _ => exact ⟨rfl, rfl⟩
  | replacing _ _ _ => exact ⟨rfl, rfl⟩
  | fresh _ _ _ => exact ⟨rfl, rfl⟩
  | growing hk hend hfull =>
    have hover : m.sizing.threshold < m.size + 1 := by omega
    exact absurd ⟨hk, h.contains_of_endsVacant hk hend, hover⟩ hx

theorem Valid.size_le_card (h : m.Valid) {keys : Finset (CodeUnit w)}
    (hk : ∀ u, u ≠ .null w → m.contains u = true → u ∈ keys) : m.size ≤ keys.card := by
  have hcard : (keySet m.table.entries).card = m.size := by
    rw [keySet, List.toFinset_card_of_nodup h.table.distinct, List.length_map, size,
      h.table.counted]
  rw [← hcard]
  apply Finset.card_le_card
  intro u hu
  have hmem := List.mem_toFinset.mp hu
  have hne : u ≠ .null w := fun hn => h.null_not_mem (hn ▸ hmem)
  exact hk u hne ((h.contains_iff hne).mpr hmem)

theorem Sheds.sizing_eq (hs : m.Sheds m') : m'.sizing = m.sizing := by
  induction hs with
  | refl => rfl
  | @remove m' _ c ih =>
    refine Eq.trans ?_ ih
    rcases c.remove_map m' with hr | hr | ⟨i, hr⟩
    · rw [hr]
    · rw [hr]
    · rw [hr, removeSlot_eq]

end Presence

structure Fitted (m : CodeMap w V) (lf : LoadFactor) (target : Nat) : Prop where
  valid : m.Valid
  sizing_eq : m.sizing = .forTarget target lf w.domain

namespace Fitted

variable (h : m.Fitted lf target)
include h

theorem loadFactor_eq : m.sizing.loadFactor = lf := by
  rw [h.sizing_eq]
  rfl

theorem admissible : lf.Admissible w := h.loadFactor_eq ▸ h.valid.admissible

theorem clamp_le : Sizing.clamp target w.domain ≤ m.sizing.threshold := by
  rw [h.sizing_eq]
  exact (Sizing.forTarget_suffices h.admissible target).le_threshold

theorem threshold_pos : 0 < m.sizing.threshold :=
  Nat.lt_of_lt_of_le (Sizing.clamp_pos target w.domain) h.clamp_le

theorem capacity_eq : m.capacity = (Sizing.forTarget target lf w.domain).length := by
  rw [← h.sizing_eq]
  exact h.valid.length_eq

/-- More entries within the threshold ask for the same sizing. -/
theorem of_sizing_eq (hv : m'.Valid) (hs : m'.sizing = m.sizing) :
    m'.Fitted lf (max target m'.size) := by
  refine ⟨hv, ?_⟩
  have hsize := hv.size_le
  rw [hs, h.sizing_eq] at hsize
  have hclamp := h.clamp_le
  have hpos := h.threshold_pos
  rw [h.sizing_eq] at hclamp hpos
  rw [hs, h.sizing_eq]
  refine (Sizing.forTarget_eq_of_le h.admissible (Nat.le_max_left _ _) ?_).symm
  unfold Sizing.clamp at hclamp ⊢
  omega

theorem grow_eq {old : CodeMap w V} (hover : old.Overfull) (hs : old.sizing = m.sizing) :
    old.grow.1.Fitted lf (max target old.grow.1.size) ∧
      old.grow.1.capacity = 2 * m.capacity := by
  have hpos : 0 < old.sizing.threshold := hs ▸ h.threshold_pos
  have hlf : old.sizing.loadFactor = lf := hs ▸ h.loadFactor_eq
  have hnext := hover.nextSizing_eq hpos
  have hdom := hover.size_le_domain
  have hsize := hover.size_eq
  have hmax : max target old.grow.1.size = old.sizing.threshold + 1 := by
    have hclamp := h.clamp_le
    rw [← hs] at hclamp
    rw [size_grow, hsize]
    unfold Sizing.clamp at hclamp
    omega
  constructor
  · refine ⟨hover.grow_valid, ?_⟩
    rw [hmax, ← hlf, hover.forTarget_eq hpos (by omega) (by omega)]
    exact hnext
  · have hlen : old.grow.1.capacity = old.nextSizing.length := hover.grow_valid.length_eq
    rw [hlen, hnext, capacity, h.valid.length_eq, ← hs]
    exact Nat.mul_comm _ 2

variable [BEq V]

theorem insert_exceeds (hx : m.Exceeds key) (value : V) :
    (m.insert key value).map.Fitted lf (max target (m.insert key value).map.size) ∧
      (m.insert key value).map.capacity = 2 * m.capacity := by
  obtain ⟨i, _, hover, hins⟩ := h.valid.insert_exceeds hx value
  rw [hins]
  exact h.grow_eq hover rfl

theorem insert (key : CodeUnit w) (value : V) :
    (m.insert key value).map.Fitted lf (max target (m.insert key value).map.size) := by
  by_cases hx : m.Exceeds key
  · exact (h.insert_exceeds hx value).1
  · exact h.of_sizing_eq (h.valid.insert key value) (h.valid.insert_stays hx value).2

theorem sheds (hs : m.Sheds m') : m'.Fitted lf (max target m'.size) :=
  h.of_sizing_eq (hs.valid h.valid) hs.sizing_eq

theorem becomes (hb : m.Becomes m') : m'.Fitted lf (max target m'.size) := by
  cases hb with
  | insert key value => exact h.insert key value
  | sheds hs => exact h.sheds hs

end Fitted

/-- A map as it is built: for so many entries, at a load factor that can be sized for. -/
inductive Built : CodeMap w V → Nat → LoadFactor → Prop where
  | empty (d : V) : Built (.empty d) 16 .standard
  | withCapacity {capacity : Nat} {loadFactor : Single} {d : V} {m : CodeMap w V}
      {lf : LoadFactor} : CodeMap.withCapacity capacity loadFactor d = .ok m →
      Sizing.accept capacity loadFactor = .ok lf → lf.Admissible w → Built m capacity lf

theorem withSizing_fitted (h : lf.Admissible w) (target : Nat) (d : V) :
    (withSizing (.forTarget target lf w.domain) d : CodeMap w V).Fitted lf target :=
  ⟨withSizing_valid h target d, rfl⟩

theorem Built.constructed {requested : Nat} (h : m.Built requested lf) : m.Constructed := by
  cases h with
  | empty d => exact .empty d
  | withCapacity hm hlf hadm =>
    obtain ⟨lf', hlf', rfl⟩ := withCapacity_ok hm
    obtain rfl := Except.ok.inj (hlf'.symm.trans hlf)
    exact .withCapacity hm hadm

theorem Constructed.exists_built (h : m.Constructed) : ∃ requested lf, m.Built requested lf := by
  cases h with
  | empty d => exact ⟨16, .standard, .empty d⟩
  | @withCapacity capacity _ _ _ hm hadm =>
    obtain ⟨lf, hlf, rfl⟩ := withCapacity_ok hm
    exact ⟨capacity, lf, .withCapacity hm hlf hadm⟩

theorem Built.fitted {requested : Nat} (h : m.Built requested lf) : m.Fitted lf requested := by
  cases h with
  | empty d => exact withSizing_fitted (LoadFactor.standard_admissible w) _ d
  | withCapacity hm hlf hadm =>
    obtain ⟨lf', hlf', rfl⟩ := withCapacity_ok hm
    obtain rfl := Except.ok.inj (hlf'.symm.trans hlf)
    exact withSizing_fitted hadm _ _

theorem Built.size_eq {requested : Nat} (h : m.Built requested lf) : m.size = 0 := by
  cases h with
  | empty d => rfl
  | withCapacity hm _ _ =>
    obtain ⟨_, _, rfl⟩ := withCapacity_ok hm
    rfl

/-- What growth makes of a map that is one entry over its threshold. -/
structure Regrown (old m : CodeMap w V) (event : TableEvent) : Prop where
  sound : m.Sound
  entries_perm : m.table.entries.Perm old.table.entries
  /-- Placed one by one in any order, the same keys come to hold the same slots. -/
  placed : ∀ es : List (Entry w V), (es.map Entry.key).Perm (old.table.entries.map Entry.key) →
    (Table.placed m.capacity es).entries.Perm es ∧
      ∀ i, (m.table.slot? i).isSome = ((Table.placed m.capacity es).slot? i).isSome
  home_held : ∀ e ∈ old.table.entries, ∃ e',
    m.table.slot? (home m.capacity e.key) = some e' ∧
      home m.capacity e'.key = home m.capacity e.key
  event_eq : ∃ delayed, event = .grown old.capacity m.capacity m.size delayed ∧
    delayed + (homes m.capacity (keySet old.table.entries)).card = m.size

theorem Overfull.regrown (h : m.Overfull) : Regrown m m.grow.1 m.grow.2 := by
  have hr := h.rehash_stores
  have hv := h.grow_valid
  have hcap : m.grow.1.capacity = m.nextSizing.length := hr.length_eq
  have hroom : m.table.entries.length < m.nextSizing.length :=
    Nat.lt_of_le_of_lt h.entries_le m.nextSizing.threshold_lt
  have hpos : 0 < m.nextSizing.length := by omega
  refine ⟨hv.sound, hr.perm, ?_, ?_, ?_⟩
  · intro es hkeys
    have hes : Placeable es := by
      refine ⟨?_, hkeys.nodup_iff.mpr h.table.distinct⟩
      intro e he
      obtain ⟨e', he', hk⟩ := List.mem_map.mp (hkeys.mem_iff.mp (List.mem_map_of_mem he))
      rw [← hk]
      exact Table.nonnull he'
    have hlen := hkeys.length_eq
    rw [List.length_map, List.length_map] at hlen
    have hs := Table.placed_stores (n := m.nextSizing.length) hes (by omega)
    rw [hcap]
    refine ⟨hs.perm, ?_⟩
    have hsame := (hs.perm.map Entry.key).trans (hkeys.trans (hr.perm.map Entry.key).symm)
    exact fun i => (hv.table.isSome_slot?_eq hv.hasVacancy hs.arranged (hs.hasVacancy (by omega))
      (hs.length_eq.trans hcap.symm) hsame i).symm
  · rw [hcap]
    intro e he
    exact Table.rehash_home_held h.table.aligned hpos he
  · refine ⟨(m.table.rehash m.nextSizing.length).2, ?_, ?_⟩
    · rw [hcap, size_grow]
      rfl
    · rw [hcap, size_grow, size, h.table.counted]
      exact Table.rehash_delayed_add h.table.aligned hpos

end CodeMap

end LexBase
