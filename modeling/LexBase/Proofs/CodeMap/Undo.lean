import LexBase.Proofs.CodeMap.Refinement
import LexBase.Proofs.Session.Reachable

/-!
# Taking an insertion back

A removal of the entry that was inserted last restores the table slot by slot. The entries behind the
new one were reached before it was there, so no path of theirs crosses its slot, and the loop that
closes the gap leaves all of them where they stand, even where the new entry had joined two runs.
-/

namespace LexBase

set_option autoImplicit false

variable {w : Width} {V : Type}

theorem setIfInBounds_getD {α : Type} {a : Array α} {x : α} {i : Nat} (h : a.getD i x = x) :
    a.setIfInBounds i x = a := by
  unfold Array.setIfInBounds
  split
  · next hi =>
    obtain rfl : a[i] = x := by simpa [Array.getD_eq_getD_getElem?, hi] using h
    exact Array.set_getElem_self hi
  · rfl

namespace Table

variable {t t' : Table w V} {start hole i k : Nat} {e : Entry w V}

/-- Into a hole that no path crosses nothing moves. -/
theorem Unbroken.closes_eq (hu : t.Unbroken start) (hc : Closes start t hole i t' k)
    (h : t.Gap start hole i) : t' = t ∧ k = 0 := by
  induction hc with
  | stop _ => exact ⟨rfl, rfl⟩
  | stay he hhome _ ih => exact ih hu (h.stay he hhome)
  | move he hhome _ _ =>
    have hheld := (hu _ _ h.lt_length he).2 _ hhome h.hole_lt
    rw [h.hole_vacant] at hheld
    cases hheld

theorem Aligned.take_occupy (ha : t.Aligned) (hvac : t.slot? i = none) (e : Entry w V) :
    (t.occupy i e).take i = t := by
  have hkey : t.keys.setIfInBounds i (.null w) = t.keys :=
    setIfInBounds_getD (ha.slot?_eq_none_iff.mp hvac)
  have hvalue : t.values.setIfInBounds i none = t.values :=
    setIfInBounds_getD (ha.value?_eq_none (ha.slot?_eq_none_iff.mp hvac))
  obtain ⟨keys, values, count⟩ := t
  change keys.setIfInBounds i _ = keys at hkey
  change values.setIfInBounds i _ = values at hvalue
  unfold take Table.vacate Table.occupy Table.fill
  simp only [Array.setIfInBounds_setIfInBounds, hkey, hvalue, Nat.add_sub_cancel]

theorem Valid.remove_occupy (hv : t.Valid) (hi : i < t.length) (hvac : t.slot? i = none)
    (hk : e.key ≠ .null w) (hv' : (t.occupy i e).Valid) (hvac' : (t.occupy i e).HasVacancy) :
    (t.occupy i e).remove i = ⟨some e.value, t, 0⟩ := by
  obtain ⟨start, hb⟩ := hvac'.based
  have hi' : i < (t.occupy i e).length := by rwa [length_occupy]
  have hat := add_distance hb.start_lt hi'
  have hp := distance_lt (a := start) (b := i) (Nat.zero_lt_of_lt hi')
  have hslot : (t.occupy i e).onward? start (distance (t.occupy i e).length start i) = some e := by
    rw [onward?, hat, slot?_occupy hv.aligned hi hk, if_pos rfl]
  have hgap := (hb.unbroken hv'.reached).gap hv'.aligned hb hp hslot
  obtain ⟨_, u, k, _, hc, _, hrem⟩ := hv'.closes hb hp hslot
  rw [hat, hv.aligned.take_occupy hvac] at hgap hc
  rw [hat] at hrem
  have hu : t.Unbroken start := hgap.based.unbroken hv.reached
  obtain ⟨rfl, rfl⟩ := hu.closes_eq hc hgap
  exact hrem

end Table

variable [BEq V]

namespace CodeMap

variable {m : CodeMap w V} {c : Walker w} {key : CodeUnit w} {value : V} {i : Nat}

theorem Valid.insert_fresh (h : m.Valid) (hk : key ≠ .null w) (habs : m.contains key = false)
    (hg : (m.insert key value).growth = none) :
    ∃ i, m.table.EndsVacant key i ∧
      m.insert key value = ⟨none, m.occupy i ⟨key, value⟩, none⟩ := by
  have hi := h.inserts key value
  generalize m.insert key value = ins at hi hg ⊢
  cases hi with
  | beside hnull => exact absurd hnull hk
  | @replacing i e _ he hkey =>
    have hmem : e.key ∈ m.table.entries.map Entry.key :=
      List.mem_map_of_mem (Table.mem_entries.mpr ⟨i, he⟩)
    rw [hkey, ← h.contains_iff hk, habs] at hmem
    cases hmem
  | @fresh i _ hend _ => exact ⟨i, hend, rfl⟩
  | growing _ _ _ => cases hg

theorem Valid.remove_occupy (h : m.Valid) (hend : m.table.EndsVacant key i)
    (hk : key ≠ .null w) (hon : c.On (m.occupy i ⟨key, value⟩)) {e : Entry w V}
    (hat : c.At (m.occupy i ⟨key, value⟩) e) (hkey : e.key = key) :
    ∃ c', c.remove (m.occupy i ⟨key, value⟩) = ⟨.ok value, c', m, some (.removed 0 m.size)⟩ := by
  have hslot : (m.occupy i ⟨key, value⟩).table.slot? i = some ⟨key, value⟩ := by
    rw [table_occupy, Table.slot?_occupy h.table.aligned hend.lt_length hk, if_pos rfl]
  have hrem : (m.occupy i ⟨key, value⟩).removeSlot i = (some (value, .removed 0 m.size), m) := by
    have htable := h.table.remove_occupy hend.lt_length hend.vacant hk hon.valid.table
      hon.valid.hasVacancy
    rw [removeSlot_eq, table_occupy, htable]
    rfl
  cases hat with
  | @slot o _ hc ho he =>
    rw [← hon.slot?_slotAt] at he
    obtain hplace : c.slotAt o = i := hon.valid.table.slot_eq_of_key_eq he hslot hkey
    refine ⟨c.rewound o, ?_⟩
    simp only [Walker.remove, hon.matchesMap, hc, Bool.not_true, Bool.false_eq_true, if_false,
      hplace, hrem, Walker.rewound]
  | null _ _ => exact absurd hkey.symm hk

theorem Valid.insert_undone (h : m.Valid) (value : V) (hk : key ≠ .null w)
    (habs : m.contains key = false) (hg : (m.insert key value).growth = none) :
    ∃ c c', (m.insert key value).map.walker.seek (m.insert key value).map key
        ((m.insert key value).map.size + 2) = some (.ok c) ∧
      c.remove (m.insert key value).map = ⟨.ok value, c', m, some (.removed 0 m.size)⟩ := by
  have hv := h.insert key value
  obtain ⟨i, hend, hins⟩ := h.insert_fresh hk habs hg
  rw [hins] at hv ⊢
  have hmem : ⟨key, value⟩ ∈ (m.occupy i ⟨key, value⟩).walker.rest (m.occupy i ⟨key, value⟩) := by
    rw [(Walker.rest_walker_perm hv).mem_iff, table_occupy,
      (hend.entries_occupy h.table.aligned hk value).mem_iff]
    exact List.mem_cons_self
  have hs := (Walker.on_walker hv).seek key _ (Walker.budget_walker hv)
  generalize (m.occupy i ⟨key, value⟩).walker.seek (m.occupy i ⟨key, value⟩) key _ = sought at hs ⊢
  cases hs with
  | @found c e hon hat hkey =>
    obtain ⟨c', hrem⟩ := h.remove_occupy hend hk hon hat hkey
    exact ⟨c, c', rfl, hrem⟩
  | absent hall _ => exact absurd rfl (hall _ hmem)

end CodeMap

namespace Session

variable {s : Session w V} {m : CodeMap w V} {key : CodeUnit w}

/-- In a reachable session an insertion of a new key that causes no growth can be taken back: the
whole map is as it was, and no other entry moved. -/
theorem reachable_insert_undone (h : s.Reachable) (hm : m ∈ s.maps) (value : V)
    (hk : key ≠ .null w) (habs : m.contains key = false)
    (hg : (m.insert key value).growth = none) :
    ∃ c c', (m.insert key value).map.walker.seek (m.insert key value).map key
        ((m.insert key value).map.size + 2) = some (.ok c) ∧
      c.remove (m.insert key value).map = ⟨.ok value, c', m, some (.removed 0 m.size)⟩ :=
  (h.valid m hm).insert_undone value hk habs hg

/-- Two runs of held slots with one vacant slot between them, the first one around the end. -/
def twoRuns : Session .byte Nat :=
  (Session.addMap ⟨[], []⟩ (.empty 0)).session.after
    [(0, .insert 74 1), (0, .insert 133 2), (0, .insert 28 3), (0, .insert 40 4), (0, .insert 7 5),
      (0, .insert 11 6), (0, .insert 4 7)]

theorem twoRuns_insert_undone : ∃ m, twoRuns.maps[0]? = some m ∧
    [1, 2, 3].map (fun i => (m.table.slot? i).map Entry.key) = [some 28, none, some 40] ∧
    [1, 2, 3].map (fun i => ((m.insert 43 9).map.table.slot? i).map Entry.key) =
      [some 28, some 43, some 40] ∧
    ∃ c c', (m.insert 43 9).map.walker.seek (m.insert 43 9).map 43
        ((m.insert 43 9).map.size + 2) = some (.ok c) ∧
      c.remove (m.insert 43 9).map = ⟨.ok 9, c', m, some (.removed 0 m.size)⟩ := by
  have hreach : twoRuns.Reachable := .after (.addMap .start (.empty 0)) _
  have hfacts : twoRuns.maps[0]?.map (fun m => (m.contains 43, (m.insert 43 9).growth,
      [1, 2, 3].map (fun i => (m.table.slot? i).map Entry.key),
      [1, 2, 3].map (fun i => ((m.insert 43 9).map.table.slot? i).map Entry.key))) =
      some (false, none, [some 28, none, some 40], [some 28, some 43, some 40]) := by
    decide +kernel
  obtain ⟨m, hm, hall⟩ := Option.map_eq_some_iff.mp hfacts
  simp only [Prod.mk.injEq] at hall
  obtain ⟨habs, hg, hbefore, hafter⟩ := hall
  have hundone := reachable_insert_undone hreach (List.mem_of_getElem? hm) 9 (by decide) habs hg
  exact ⟨m, hm, hbefore, hafter, hundone⟩

end Session

end LexBase
