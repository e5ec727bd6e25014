import LexBase.Proofs.CodeMap.Contents
import LexBase.Proofs.CodeMap.Evolution

/-!
# Keys that come and go

Between two states of a map some non-null keys come and others go. How many of each is read off the
presence of the keys and not off the count the table keeps, so the count can be checked against it:
it moves by the difference. No command shortens the table.
-/

namespace LexBase

set_option autoImplicit false

variable {w : Width} {V : Type}

namespace CodeMap

/-- A full table moves to a longer one: at its own length the threshold would be the same. -/
theorem Overfull.length_lt {m : CodeMap w V} (h : m.Overfull) :
    m.sizing.length < m.nextSizing.length := by
  have hs := Sizing.forTarget_suffices h.admissible m.sizing.nextTarget
  have hle := h.entries_le
  rw [← h.table.counted] at hle
  have hlt : m.sizing.threshold < m.nextSizing.threshold := by
    have hsize := h.size_eq
    unfold size at hsize
    omega
  have horder : m.sizing.order < m.nextSizing.order := by
    apply Nat.lt_of_not_le
    intro hge
    exact Nat.not_lt_of_le (Sizing.threshold_mono hs.loadFactor_eq.symm hge) hlt
  exact Nat.pow_lt_pow_right Nat.one_lt_two horder

variable [BEq V] {m m' : CodeMap w V}

/-- The number of non-null keys that `m'` holds and `m` does not. -/
def gain (m m' : CodeMap w V) : Nat :=
  (units w).countP fun u => m'.contains u && !m.contains u

theorem Valid.size_eq_countP (h : m.Valid) : m.size = (units w).countP m.contains := by
  rw [h.represents.size_eq, Contents.size, Contents.members, ← List.countP_eq_length_filter]
  apply List.countP_congr
  intro u hu
  rw [h.represents.contains_eq, Contents.present, if_neg (mem_units.mp hu)]

/-- The count of entries moves by the keys that come and the keys that go. -/
theorem Valid.size_add_gain (h : m.Valid) (h' : m'.Valid) :
    m'.size + m'.gain m = m.size + m.gain m' := by
  rw [h.size_eq_countP, h'.size_eq_countP, gain, gain]
  induction units w with
  | nil => rfl
  | cons u us ih =>
    simp only [List.countP_cons]
    cases m.contains u <;> cases m'.contains u <;> simp <;> omega

theorem gain_eq_zero_iff :
    m.gain m' = 0 ↔ ∀ u, u ≠ .null w → m'.contains u = true → m.contains u = true := by
  unfold gain
  rw [List.countP_eq_zero]
  constructor
  · intro h u hu hc
    have hno := h u (mem_units.mpr hu)
    rw [hc] at hno
    simpa using hno
  · intro h u hu hboth
    simp only [Bool.and_eq_true, Bool.not_eq_true'] at hboth
    rw [h u (mem_units.mp hu) hboth.1] at hboth
    cases hboth.2

theorem sameKeys_iff_gain : m.SameKeys m' ↔ m.gain m' = 0 ∧ m'.gain m = 0 := by
  rw [gain_eq_zero_iff, gain_eq_zero_iff]
  constructor
  · intro hs
    exact ⟨fun u hu hc => (hs u hu) ▸ hc, fun u hu hc => (hs u hu).trans hc⟩
  · intro h u hu
    exact Bool.eq_iff_iff.mpr ⟨h.1 u hu, h.2 u hu⟩

theorem Valid.contains_insert (h : m.Valid) (key : CodeUnit w) (value : V) {u : CodeUnit w}
    (hu : u ≠ .null w) :
    (m.insert key value).map.contains u = true ↔ u = key ∨ m.contains u = true := by
  rw [(h.represents.insert key value).2.contains_eq, h.represents.contains_eq, Contents.present,
    Contents.present, if_neg hu, if_neg hu, Contents.bind]
  by_cases hk : key = .null w
  · have hne : u ≠ key := fun heq => hu (heq.trans hk)
    simp [hk, hu]
  · rw [if_neg hk]
    by_cases heq : u = key
    · simp [heq]
    · simp [heq]

theorem Valid.remove_cases (h : m.Valid) (c : Walker w) :
    (c.remove m).map.table = m.table ∨
      ∃ e, m.table.entries.Perm (e :: (c.remove m).map.table.entries) ∧
        (c.remove m).map.table.length = m.table.length := by
  rcases c.remove_map m with hr | hr | ⟨i, hr⟩
  · rw [hr]
    exact Or.inl rfl
  · rw [hr]
    exact Or.inl rfl
  · rw [hr]
    cases hs : m.table.slot? i with
    | none =>
      rw [removeSlot_of_none h.table.aligned hs]
      exact Or.inl rfl
    | some e =>
      obtain ⟨t, event, hrem, hp, hv⟩ := h.removeSlot_some hs
      rw [hrem]
      exact Or.inr ⟨e, hp, hv.length_eq.trans h.length_eq.symm⟩

theorem Valid.contains_of_remove (h : m.Valid) (c : Walker w) {u : CodeUnit w} (hu : u ≠ .null w)
    (hc : (c.remove m).map.contains u = true) : m.contains u = true := by
  rw [(h.remove c).contains_iff hu] at hc
  rw [h.contains_iff hu]
  rcases h.remove_cases c with heq | ⟨e, hp, _⟩
  · rwa [heq] at hc
  · rw [(hp.map Entry.key).mem_iff]
    exact List.mem_cons_of_mem _ hc

theorem Sheds.gain (hs : m.Sheds m') (h : m.Valid) : m.gain m' = 0 := by
  rw [gain_eq_zero_iff]
  induction hs with
  | refl => exact fun _ _ hc => hc
  | remove hs c ih =>
    intro u hu hc
    exact ih u hu ((hs.valid h).contains_of_remove c hu hc)

theorem Valid.insert_gain (h : m.Valid) {key : CodeUnit w} (value : V) (hk : key ≠ .null w)
    (hc : m.contains key = false) : m.gain (m.insert key value).map = 1 := by
  have hnd : (units w).Nodup := by
    apply (units_ascending w).imp
    rintro u v huv rfl
    exact Nat.lt_irrefl _ huv
  have hcount : m.gain (m.insert key value).map = (units w).count key := by
    apply List.countP_congr
    intro u hu
    simp only [Bool.and_eq_true, Bool.not_eq_true', beq_iff_eq]
    rw [h.contains_insert key value (mem_units.mp hu)]
    constructor
    · rintro ⟨rfl | hu, hno⟩
      · rfl
      · rw [hu] at hno
        cases hno
    · rintro rfl
      exact ⟨Or.inl rfl, hc⟩
  rw [hcount, List.count_eq_one_of_mem hnd (mem_units.mpr hk)]

theorem Valid.insert_sameKeys (h : m.Valid) {key : CodeUnit w} (value : V)
    (hk : key = .null w ∨ m.contains key = true) : m.SameKeys (m.insert key value).map := by
  intro u hu
  apply Bool.eq_iff_iff.mpr
  rw [h.contains_insert key value hu]
  constructor
  · rintro (rfl | hc)
    · exact hk.resolve_left hu
    · exact hc
  · exact Or.inr

theorem Sheds.capacity (hs : m.Sheds m') (h : m.Valid) : m'.capacity = m.capacity := by
  induction hs with
  | refl => rfl
  | @remove m' hs c ih =>
    refine Eq.trans ?_ ih
    unfold CodeMap.capacity
    rcases (hs.valid h).remove_cases c with heq | ⟨_, _, hlen⟩
    · rw [heq]
    · exact hlen

theorem Becomes.capacity_le (hb : m.Becomes m') (h : m.Valid) : m.capacity ≤ m'.capacity := by
  cases hb with
  | insert key value =>
    have hi := h.inserts key value
    generalize m.insert key value = ins at hi ⊢
    unfold capacity
    cases hi with
    | beside _ => exact Nat.le_refl _
    | replacing _ _ _ => exact Nat.le_of_eq (Table.length_store _ _ _).symm
    | fresh _ _ _ => exact Nat.le_of_eq (Table.length_occupy _ _ _).symm
    | @growing i hk hend hfull =>
      have hover : (m.occupy i ⟨key, value⟩).Overfull := h.overfull hk hend hfull
      rw [grow_map, hover.rehash_stores.length_eq, h.length_eq]
      exact Nat.le_of_lt hover.length_lt
  | sheds hs => exact Nat.le_of_eq (hs.capacity h).symm

end CodeMap

end LexBase
