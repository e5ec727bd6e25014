import LexBase.Proofs.CodeMap.Evolution
import LexBase.Proofs.Walker.Calls

/-!
# Outcomes of a call

What a call of any walker on any map can lead to, whatever happened to the two before. A walker
checks the entries and the slots it expects before anything else: a map that differs is reported
with both numbers of entries and nothing changes; a map that agrees is never reported. Its own
removals are accounted for, since they take as many entries out of the map as they take off what the
walker expects.
-/

namespace LexBase

set_option autoImplicit false

variable {w : Width} {V : Type} [BEq V] {c : Walker w} {m : CodeMap w V}

def Reports {α : Type} (r : Except WalkError α) : Prop :=
  ∃ expected found, r = .error (.concurrentModification expected found)

namespace Walker

inductive Produces (c : Walker w) (m : CodeMap w V) :
    Except WalkError (Entry w V) × Walker w → Prop where
  | differs : c.matchesMap m = false → Produces c m (.error (c.mismatch m), c)
  | entry {o : Nat} {e : Entry w V} : c.matchesMap m = true →
      m.table.slot? (c.slotAt o) = some e →
      Produces c m (.ok e, { c with offset := o + 1, current := some (.slot o (c.slotAt o)) })
  | null {v : V} {offset : Nat} : c.matchesMap m = true → m.presentNull = some v →
      Produces c m (.ok ⟨.null w, v⟩,
        { c with offset := offset, current := some .null, nullVisited := true })
  | exhausted {offset : Nat} : c.matchesMap m = true →
      Produces c m (.error .exhausted,
        { c with offset := offset, current := none, nullVisited := true })

/-- What a removal can lead to; only one of them changes the table. -/
inductive Removes (c : Walker w) (m : CodeMap w V) : Removed w V → Prop where
  | differs : c.matchesMap m = false → Removes c m ⟨.error (c.mismatch m), c, m, none⟩
  | unset : c.matchesMap m = true → c.current = none →
      Removes c m ⟨.error .invalidRemoval, { c with current := none }, m, none⟩
  | vacant {o i : Nat} : c.matchesMap m = true → c.current = some (.slot o i) →
      m.table.slot? i = none →
      Removes c m ⟨.error .invalidRemoval, { c with current := none }, m, none⟩
  | absent : c.matchesMap m = true → c.current = some .null → m.presentNull = none →
      Removes c m
        ⟨.error .invalidRemoval, { c with current := none }, { m with nullValue := none }, none⟩
  | null {v : V} : c.matchesMap m = true → c.current = some .null → m.presentNull = some v →
      Removes c m ⟨.ok v, { c with current := none }, { m with nullValue := none }, none⟩
  | entry {o i : Nat} {e : Entry w V} {m' : CodeMap w V} {event : TableEvent} :
      c.matchesMap m = true → c.current = some (.slot o i) → m.table.slot? i = some e →
      m.removeSlot i = (some (e.value, event), m') →
      Removes c m ⟨.ok e.value, c.rewound o, m', some event⟩

theorem produces (c : Walker w) (m : CodeMap w V) : c.Produces m (c.next m) := by
  cases hmatch : c.matchesMap m with
  | false =>
    simp only [next, hmatch, Bool.not_false, if_true]
    exact .differs hmatch
  | true =>
    simp only [next, hmatch, Bool.not_true, Bool.false_eq_true, if_false]
    cases ha : c.ahead? m with
    | some found =>
      obtain ⟨o, e⟩ := found
      obtain ⟨_, he, _⟩ :=
        filterMap_eq_cons_of_firstSome (f := fun o => m.table.slot? (c.slotAt o)) ha
      exact .entry hmatch he
    | none =>
      simp only
      split
      · next v hv =>
        refine .null hmatch ?_
        split at hv
        · cases hv
        · exact hv
      · exact .exhausted hmatch

theorem removes (ha : m.table.Aligned) (c : Walker w) : c.Removes m (c.remove m) := by
  cases hmatch : c.matchesMap m with
  | false =>
    simp only [remove, hmatch, Bool.not_false, if_true]
    exact .differs hmatch
  | true =>
    simp only [remove, hmatch, Bool.not_true, Bool.false_eq_true, if_false]
    split
    · next hc => exact .unset hmatch hc
    · next hc =>
      cases hn : m.presentNull with
      | none =>
        simp only [CodeMap.clearNull, hn]
        exact .absent hmatch hc hn
      | some v =>
        simp only [CodeMap.clearNull, hn]
        exact .null hmatch hc hn
    · next o i hc =>
      cases hs : m.table.slot? i with
      | none =>
        rw [CodeMap.removeSlot_of_none ha hs]
        exact .vacant hmatch hc hs
      | some e =>
        have hr := m.removeSlot_eq i
        rw [Table.remove_of_some hs] at hr
        rw [hr]
        exact .entry hmatch hc hs hr

section Differs

variable (h : c.matchesMap m = false)
include h

theorem hasNext_of_differs : c.hasNext m = true := by
  simp [hasNext, h]

theorem next_of_differs : c.next m = (.error (c.mismatch m), c) := by
  simp [next, h]

theorem remove_of_differs : c.remove m = ⟨.error (c.mismatch m), c, m, none⟩ := by
  simp [remove, h]

end Differs

theorem next_not_reports (h : c.matchesMap m = true) : ¬ Reports (c.next m).1 := by
  have hp := c.produces m
  generalize c.next m = r at hp ⊢
  rintro ⟨expected, found, hr⟩
  cases hp with
  | differs hdiff =>
    rw [h] at hdiff
    cases hdiff
  | entry _ _ => cases hr
  | null _ _ => cases hr
  | exhausted _ => cases hr

theorem remove_not_reports (ha : m.table.Aligned) (h : c.matchesMap m = true) :
    ¬ Reports (c.remove m).answer := by
  have hp := removes ha c
  generalize c.remove m = r at hp ⊢
  rintro ⟨expected, found, hr⟩
  cases hp with
  | differs hdiff =>
    rw [h] at hdiff
    cases hdiff
  | unset _ _ => cases hr
  | vacant _ _ _ => cases hr
  | absent _ _ _ => cases hr
  | null _ _ _ => cases hr
  | entry _ _ _ _ => cases hr

omit [BEq V] in
theorem matchesMap_of_sameSlots (c : Walker w) {m' : CodeMap w V} (hs : m.SameSlots m') :
    c.matchesMap m' = c.matchesMap m := by
  unfold matchesMap CodeMap.capacity
  rw [hs.size_eq, hs.length_eq]

theorem next_expects (c : Walker w) (m : CodeMap w V) :
    (c.next m).2.expected = c.expected ∧ (c.next m).2.span = c.span := by
  have hp := c.produces m
  generalize c.next m = r at hp ⊢
  cases hp <;> exact ⟨rfl, rfl⟩

theorem remove_span (ha : m.table.Aligned) (c : Walker w) :
    (c.remove m).walker.span = c.span := by
  have hr := removes ha c
  generalize c.remove m = r at hr ⊢
  cases hr <;> rfl

theorem remove_sameKeys (ha : m.table.Aligned) (hc : c.current = some .null) :
    m.SameKeys (c.remove m).map := by
  have hnull : m.SameKeys { m with nullValue := none } := by
    intro u hu
    have hkey : ¬ u.isNull = true := fun hn => hu ((CodeUnit.isNull_iff u).mp hn)
    simp only [CodeMap.contains, if_neg hkey]
  have hr := removes ha c
  generalize c.remove m = r at hr ⊢
  cases hr with
  | differs _ => exact fun _ _ => rfl
  | unset _ _ => exact fun _ _ => rfl
  | vacant _ _ _ => exact fun _ _ => rfl
  | absent _ _ _ => exact hnull
  | null _ _ _ => exact hnull
  | entry _ hc' _ _ =>
    rw [hc] at hc'
    cases hc'

/-- A removal takes off what the walker expects what it takes out of the map. -/
theorem remove_balance (h : m.Valid) (c : Walker w) :
    (c.remove m).walker.expected + m.size = c.expected + (c.remove m).map.size := by
  have hr := removes h.table.aligned c
  generalize c.remove m = r at hr ⊢
  cases hr with
  | differs _ => rfl
  | unset _ _ => rfl
  | vacant _ _ _ => rfl
  | absent _ _ _ => rfl
  | null _ _ _ => rfl
  | entry hmatch _ hs hr =>
    have hexp := (matchesMap_iff.mp hmatch).1
    have hsize := h.size_removeSlot hs
    rw [hr] at hsize
    unfold rewound
    simp only at hsize ⊢
    omega

end Walker

end LexBase
