import LexBase.Proofs.CodeMap.Valid
import LexBase.Walk

/-!
# How a map evolves

A command changes a map in one of two ways: it inserts once, or it removes through walkers any
number of times. The walker of a removal need not be on the map. Either way a valid map stays
valid, and removals leave the table alone or make it smaller.
-/

namespace LexBase

set_option autoImplicit false

variable {w : Width} {V : Type} [BEq V] {m m' : CodeMap w V}

/-- A removal through any walker touches one slot, the null key, or nothing. -/
theorem Walker.remove_map (c : Walker w) (m : CodeMap w V) :
    (c.remove m).map = m ∨ (c.remove m).map = { m with nullValue := none } ∨
      ∃ i, (c.remove m).map = (m.removeSlot i).2 := by
  unfold remove
  split
  · exact Or.inl rfl
  · split
    · exact Or.inl rfl
    · unfold CodeMap.clearNull
      cases m.presentNull <;> exact Or.inr (Or.inl rfl)
    · next i _ =>
      refine Or.inr (Or.inr ⟨i, ?_⟩)
      cases m.removeSlot i with
      | mk removed m' => cases removed <;> rfl

namespace CodeMap

inductive Sheds (m : CodeMap w V) : CodeMap w V → Prop where
  | refl : Sheds m m
  | remove {m' : CodeMap w V} : Sheds m m' → (c : Walker w) → Sheds m (c.remove m').map

inductive Becomes (m : CodeMap w V) : CodeMap w V → Prop where
  | insert (key : CodeUnit w) (value : V) : Becomes m (m.insert key value).map
  | sheds {m' : CodeMap w V} : m.Sheds m' → Becomes m m'

theorem Valid.remove (h : m.Valid) (c : Walker w) : (c.remove m).map.Valid := by
  rcases c.remove_map m with hr | hr | ⟨i, hr⟩
  · rw [hr]
    exact h
  · rw [hr]
    exact h.with_null none
  · rw [hr]
    exact h.removeSlot i

theorem Sheds.valid (hs : m.Sheds m') (h : m.Valid) : m'.Valid := by
  induction hs with
  | refl => exact h
  | remove _ c ih => exact ih.remove c

theorem Becomes.valid (hb : m.Becomes m') (h : m.Valid) : m'.Valid := by
  cases hb with
  | insert key value => exact h.insert key value
  | sheds hs => exact hs.valid h

theorem Valid.remove_table (h : m.Valid) (c : Walker w) :
    (c.remove m).map.table = m.table ∨ (c.remove m).map.size < m.size := by
  rcases c.remove_map m with hr | hr | ⟨i, hr⟩
  · rw [hr]
    exact Or.inl rfl
  · rw [hr]
    exact Or.inl rfl
  · rw [hr]
    cases hs : m.table.slot? i with
    | none =>
      rw [removeSlot_of_none h.table.aligned hs]
      exact Or.inl rfl
    | some e =>
      obtain ⟨t, event, hrem, hp, hvalid⟩ := h.removeSlot_some hs
      have hcount := h.table.counted
      rw [hp.length_eq, List.length_cons] at hcount
      have hcount' := hvalid.table.counted
      rw [hrem]
      apply Or.inr
      unfold size
      simp only at hcount' ⊢
      omega

/-- Removals that leave the number of entries leave the table. -/
theorem Sheds.table (hs : m.Sheds m') (h : m.Valid) : m'.table = m.table ∨ m'.size < m.size := by
  induction hs with
  | refl => exact Or.inl rfl
  | @remove m' hs c ih =>
    rcases (hs.valid h).remove_table c with heq | hlt
    · rcases ih with heq' | hlt'
      · exact Or.inl (heq.trans heq')
      · apply Or.inr
        unfold size
        rw [heq]
        exact hlt'
    · rcases ih with heq' | hlt'
      · apply Or.inr
        unfold size at hlt ⊢
        rwa [heq'] at hlt
      · exact Or.inr (Nat.lt_trans hlt hlt')

theorem Valid.contains_iff (h : m.Valid) {key : CodeUnit w} (hk : key ≠ .null w) :
    m.contains key = true ↔ key ∈ m.table.entries.map Entry.key := by
  unfold contains
  rw [if_neg fun hn => hk ((CodeUnit.isNull_iff key).mp hn), h.table.contains_iff h.hasVacancy,
    List.mem_map]

omit [BEq V] in
theorem Valid.null_not_mem (h : m.Valid) :
    CodeUnit.null w ∉ m.table.entries.map Entry.key := by
  intro hmem
  obtain ⟨e, he, hnull⟩ := List.mem_map.mp hmem
  exact h.table.nonnull e he hnull

/-- The values, and even their types, may differ. -/
theorem Valid.keys_perm {V' : Type} [BEq V'] {n : CodeMap w V'} (h : m.Valid) (hn : n.Valid)
    (hs : ∀ key, key ≠ .null w → n.contains key = m.contains key) :
    (n.table.entries.map Entry.key).Perm (m.table.entries.map Entry.key) := by
  apply (List.perm_ext_iff_of_nodup hn.table.distinct h.table.distinct).mpr
  intro key
  by_cases hk : key = .null w
  · subst hk
    exact ⟨fun hmem => absurd hmem hn.null_not_mem, fun hmem => absurd hmem h.null_not_mem⟩
  · rw [← h.contains_iff hk, ← hn.contains_iff hk, hs key hk]

omit [BEq V] in
theorem Valid.size_eq_of_perm {V' : Type} {n : CodeMap w V'} (h : m.Valid) (hn : n.Valid)
    (hp : (n.table.entries.map Entry.key).Perm (m.table.entries.map Entry.key)) :
    n.size = m.size := by
  have hlen := hp.length_eq
  rw [List.length_map, List.length_map] at hlen
  rw [size, size, hn.table.counted, h.table.counted, hlen]

def SameKeys (m m' : CodeMap w V) : Prop :=
  ∀ key, key ≠ .null w → m'.contains key = m.contains key

theorem SameKeys.perm (hs : m.SameKeys m') (h : m.Valid) (h' : m'.Valid) :
    (m'.table.entries.map Entry.key).Perm (m.table.entries.map Entry.key) :=
  h.keys_perm h' hs

theorem SameKeys.size_eq (hs : m.SameKeys m') (h : m.Valid) (h' : m'.Valid) :
    m'.size = m.size :=
  h.size_eq_of_perm h' (hs.perm h h')

structure SameSlots (m m' : CodeMap w V) : Prop where
  length_eq : m'.table.length = m.table.length
  size_eq : m'.size = m.size
  key_eq : ∀ i, (m'.table.slot? i).map Entry.key = (m.table.slot? i).map Entry.key

omit [BEq V] in
theorem SameSlots.of_table {m' : CodeMap w V} (h : m'.table = m.table) : m.SameSlots m' := by
  refine ⟨by rw [h], ?_, fun i => by rw [h]⟩
  unfold size
  rw [h]

/-- A command that neither adds nor removes a non-null key leaves every key in its slot. -/
theorem Becomes.sameSlots (hb : m.Becomes m') (h : m.Valid) (hs : m.SameKeys m') :
    m.SameSlots m' := by
  have hsize := hs.size_eq h (hb.valid h)
  cases hb with
  | insert key value =>
    have hi := h.inserts key value
    generalize m.insert key value = ins at hi hsize ⊢
    cases hi with
    | beside _ => exact .of_table rfl
    | @replacing i e _ he hkey =>
      refine ⟨rfl, rfl, ?_⟩
      intro j
      simp only
      rw [Table.slot?_store h.table.aligned he]
      split
      · next hij =>
        subst hij
        rw [he]
        rfl
      · rfl
    | fresh hk hend _ => exact absurd hsize (Nat.succ_ne_self _)
    | growing hk hend hfull =>
      rw [size_grow] at hsize
      exact absurd hsize (Nat.succ_ne_self _)
  | sheds hsheds =>
    rcases hsheds.table h with heq | hlt
    · exact .of_table heq
    · exact absurd hsize (Nat.ne_of_lt hlt)

end CodeMap

namespace Walk

theorem visit_sheds {k : Walk w V} (choose : Chooser w V) (e : Entry w V) (h : m.Sheds k.map) :
    m.Sheds (visit choose k e).map := by
  unfold visit
  obtain ⟨walker, map, visits, events⟩ := k
  simp only
  split
  · exact h.remove walker
  · exact h

theorem run_sheds (choose : Chooser w V) (limit : Nat) {k : Walk w V} (h : m.Sheds k.map) :
    m.Sheds (run choose limit k).1.map := by
  induction limit generalizing k with
  | zero => exact h
  | succ limit ih =>
    unfold run
    obtain ⟨walker, map, visits, events⟩ := k
    simp only
    split
    · exact ih (visit_sheds choose _ h)
    · exact h

end Walk

end LexBase
