import LexBase.Proofs.CodeMap.Iteration
import LexBase.Proofs.Walker.Walks

/-!
# The layout of a map and what it rules out

A valid map is described slot by slot. From the layout it follows that nothing fails inside the
map: each loop over the table ends, each slot looked at lies in the table, nothing is counted down
below zero, no key turns up twice while the table is rebuilt, and a retain removes what it rejects.
-/

namespace LexBase

set_option autoImplicit false

variable {w : Width} {V : Type}

namespace CodeMap

variable {m : CodeMap w V}

/-- The layout of a map, slot by slot. -/
structure Sound (m : CodeMap w V) : Prop where
  length_eq : m.table.length = Nat.pow 2 m.sizing.order
  two_le : 2 ≤ m.table.length
  sizes_eq : m.table.values.size = m.table.keys.size
  none_iff : ∀ i (hk : i < m.table.keys.size) (hv : i < m.table.values.size),
    m.table.values[i] = none ↔ m.table.keys[i] = .null w
  nonnull : ∀ i e, m.table.slot? i = some e → e.key ≠ .null w
  distinct : ∀ i j e e',
    m.table.slot? i = some e → m.table.slot? j = some e' → e.key = e'.key → i = j
  size_eq : m.size = (List.range m.table.length).countP fun i => (m.table.slot? i).isSome
  size_le : m.size ≤ m.sizing.threshold
  threshold_lt : m.sizing.threshold < m.table.length
  vacant : ∃ i, i < m.table.length ∧ m.table.slot? i = none
  reached : ∀ i e, m.table.slot? i = some e →
    ∀ j, j < distance m.table.length (home m.table.length e.key) i →
      (m.table.slot? ((home m.table.length e.key + j) % m.table.length)).isSome

theorem Valid.sound (h : m.Valid) : m.Sound where
  length_eq := h.length_eq
  two_le := h.length_eq ▸ Sizing.length_ge_two h.order_pos
  sizes_eq := h.table.aligned.size_eq
  none_iff := h.table.aligned.getElem_eq_none_iff
  nonnull _ _ := Table.nonnull_of_slot?
  distinct _ _ _ _ := h.table.slot_eq_of_key_eq
  size_eq := by
    rw [size, h.table.counted, Table.entries_eq_filterMap, List.length_filterMap_eq_countP]
  size_le := h.size_le
  threshold_lt := h.length_eq ▸ m.sizing.threshold_lt
  vacant := h.hasVacancy
  reached := h.table.reached

/-- The map in the middle of an insertion that makes the table grow. -/
structure Outgrown (m : CodeMap w V) (key : CodeUnit w) (value : V) (i : Nat) : Prop where
  nonnull : key ≠ .null w
  probe_eq : m.table.probe key = some (.vacant i)
  exceeds : m.sizing.threshold < (m.occupy i ⟨key, value⟩).size

theorem Valid.overfull_of_outgrown (h : m.Valid) {key : CodeUnit w} {value : V} {i : Nat}
    (ho : m.Outgrown key value i) : (m.occupy i ⟨key, value⟩).Overfull := by
  apply h.overfull ho.nonnull (Table.endsVacant_of_probe h.table.aligned ho.probe_eq)
  have hover : m.sizing.threshold < m.size + 1 := ho.exceeds
  have hle := h.size_le
  omega

/-- Nothing fails inside the map, whatever walker it is handed to. -/
structure Safe [BEq V] (m : CodeMap w V) : Prop where
  probe_ends : ∀ key, (∃ i e, i < m.table.length ∧ m.table.probe key = some (.held i) ∧
    m.table.slot? i = some e ∧ e.key = key) ∨
    ∃ i, i < m.table.length ∧ m.table.probe key = some (.vacant i) ∧ m.table.slot? i = none
  probe_inside : ∀ (key : CodeUnit w) (j : Nat),
    (home m.sizing.length key + j) % m.sizing.length < m.table.length
  walk_inside : ∀ (c : Walker w) (o : Nat), c.matchesMap m = true → c.slotAt o < m.table.length
  /-- The loop without a bound ends, and it is the loop with the bound. -/
  removal_ends : ∀ i e, m.table.slot? i = some e → ∃ n t shifted, n < m.table.length ∧
    Table.GapRun n (m.table.take i) i ((i + 1) % m.table.length) 0 (t, shifted) ∧
    m.table.remove i = ⟨some e.value, t, shifted⟩
  size_pos : ∀ i e, m.table.slot? i = some e → 0 < m.size
  expected_pos : ∀ (c : Walker w) i e,
    c.matchesMap m = true → m.table.slot? i = some e → 0 < c.expected
  remaining_pos : ∀ it, m.iter.Yields it →
    ∀ i e, it.index ≤ i → it.slot? i = some e → 0 < it.remaining
  /-- While the table is rebuilt, each key set aside finds a vacant slot and never itself. -/
  rehash_fresh : ∀ key value i, m.Outgrown key value i → ∀ before cell after,
    ((m.occupy i ⟨key, value⟩).table.firstPass m.nextSizing.length).delayed.toList =
      before ++ cell :: after →
    ∃ k, k < m.nextSizing.length ∧
      (before.foldl Table.place
        ((m.occupy i ⟨key, value⟩).table.firstPass m.nextSizing.length).table).probe cell.1 =
      some (.vacant k)
  retain_succeeds : ∀ keep, ∀ v ∈ (m.retain keep).visits, v.Succeeds
  retain_ends : ∀ keep,
    ((m.retain keep).walker.next (m.retain keep).map).1 = .error .exhausted

theorem Valid.size_pos (h : m.Valid) {i : Nat} {e : Entry w V} (he : m.table.slot? i = some e) :
    0 < m.size := by
  rw [size, h.table.counted]
  exact List.length_pos_of_mem (Table.mem_entries.mpr ⟨i, he⟩)

theorem Valid.probe_ends (h : m.Valid) (key : CodeUnit w) :
    (∃ i e, i < m.table.length ∧ m.table.probe key = some (.held i) ∧
      m.table.slot? i = some e ∧ e.key = key) ∨
    ∃ i, i < m.table.length ∧ m.table.probe key = some (.vacant i) ∧ m.table.slot? i = none := by
  rcases Table.probe_cases h.table.aligned h.hasVacancy key with ⟨i, e, hp, he, hk⟩ | ⟨i, hp, hend⟩
  · exact Or.inl ⟨i, e, Table.lt_length_of_slot? he, hp, he, hk⟩
  · exact Or.inr ⟨i, hend.lt_length, hp, hend.vacant⟩

theorem Valid.retain_succeeds [BEq V] (h : m.Valid) (keep : Walk.Chooser w V) :
    ∀ v ∈ (m.retain keep).visits, v.Succeeds := by
  obtain ⟨es, _, hsift⟩ := h.represents.retain_sifted keep
  rw [hsift.visits_eq]
  apply Contents.sift_succeeds
  intro v hv
  exact absurd hv (Array.not_mem_empty v)

theorem Valid.retain_ends [BEq V] (h : m.Valid) (keep : Walk.Chooser w V) :
    ((m.retain keep).walker.next (m.retain keep).map).1 = .error .exhausted := by
  obtain ⟨es, _, hsift⟩ := h.represents.retain_sifted keep
  exact hsift.done

theorem Valid.safe [BEq V] (h : m.Valid) : m.Safe where
  probe_ends := h.probe_ends
  probe_inside key j := by
    rw [h.length_eq]
    exact Nat.mod_lt _ m.sizing.length_pos
  walk_inside c o hc := by
    have hspan := (Walker.matchesMap_iff.mp hc).2
    rw [Walker.slotAt, ← hspan]
    exact Nat.mod_lt _ h.hasVacancy.pos
  removal_ends i e he := h.table.gapRun h.hasVacancy he
  size_pos i e he := h.size_pos he
  expected_pos c i e hc he := by
    rw [← (Walker.matchesMap_iff.mp hc).1]
    exact h.size_pos he
  remaining_pos it hy i e hi he :=
    ((iter_counts h.table).yields hy).remaining_pos hi he
  rehash_fresh key value i ho before cell after hd := by
    have hover := h.overfull_of_outgrown ho
    exact Table.rehash_probe_vacant hover.table.aligned (.of_arranged hover.table.toArranged)
      (Nat.lt_of_le_of_lt hover.entries_le m.nextSizing.threshold_lt) hd
  retain_succeeds := h.retain_succeeds
  retain_ends := h.retain_ends

end CodeMap

end LexBase
