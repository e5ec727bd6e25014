import LexBase.Proofs.CodeMap.Evolution
import LexBase.Proofs.CodeMap.Iteration
import LexBase.Proofs.Table.Occupancy
import LexBase.Walker

/-!
# Layouts that agree

Maps of one length with the same non-null keys hold the same slots. Their iterators then stop at
the same slots and a fresh walker starts at the same place, whatever the values are and in whatever
order the keys came. Only inside a run of held slots may the keys stand in another order.
-/

namespace LexBase

set_option autoImplicit false

variable {w : Width} {V V' : Type}

namespace Iter

/-- How many of the next `limit` items come from slots before `stop`. The null key has no slot. -/
def producedBefore (stop : Nat) : Nat → Iter w V → Nat
  | 0, _ => 0
  | limit + 1, it =>
    match it.next? with
    | none => 0
    | some (e, it') =>
      if !e.key.isNull && it'.index ≤ stop then producedBefore stop limit it' + 1 else 0

structure Alike (it : Iter w V) (it' : Iter w V') : Prop where
  index_eq : it'.index = it.index
  size_eq : it'.keys.size = it.keys.size
  held : ∀ i, (it'.slot? i).isSome = (it.slot? i).isSome
  nonnull : ∀ i e, it.slot? i = some e → e.key.isNull = false
  nonnull' : ∀ i e, it'.slot? i = some e → e.key.isNull = false

theorem Alike.producedBefore {it : Iter w V} {it' : Iter w V'} (h : it.Alike it') (stop limit : Nat) :
    it'.producedBefore stop limit = it.producedBefore stop limit := by
  induction limit generalizing it it' with
  | zero => rfl
  | succ limit ih =>
    have hfst := map_fst_firstSome h.held it.index (it.keys.size - it.index)
    simp only [Iter.producedBefore, next?, h.index_eq, h.size_eq]
    cases hf : firstSome (fun i => (it.slot? i).map fun e => (i, e)) it.index
        (it.keys.size - it.index) with
    | none =>
      rw [hf, Option.map_none, Option.map_eq_none_iff] at hfst
      simp only [hfst]
      have hnull : (CodeUnit.null w).isNull = true := (CodeUnit.isNull_iff _).mpr rfl
      cases it.null <;> cases it'.null <;> simp [hnull]
    | some found =>
      obtain ⟨i, e⟩ := found
      rw [hf, Option.map_some, Option.map_eq_some_iff] at hfst
      obtain ⟨⟨i', e'⟩, hf', rfl⟩ := hfst
      obtain ⟨_, he, _⟩ := filterMap_eq_cons_of_firstSome hf
      obtain ⟨_, he', _⟩ := filterMap_eq_cons_of_firstSome hf'
      have hnext : Alike { it with index := i' + 1, remaining := it.remaining - 1 }
          { it' with index := i' + 1, remaining := it'.remaining - 1 } :=
        ⟨rfl, h.size_eq, h.held, h.nonnull, h.nonnull'⟩
      simp only [hf', h.nonnull _ e he, h.nonnull' _ e' he', ih hnext]

end Iter

theorem Table.Aligned.isNull_key {t : Table w V} (ha : t.Aligned) (i : Nat) :
    (t.key i).isNull = !(t.slot? i).isSome := by
  rw [Bool.eq_iff_iff, CodeUnit.isNull_iff, ← ha.slot?_eq_none_iff]
  simp

theorem Table.Aligned.vacancy_eq {t : Table w V} {t' : Table w V'} (ha : t.Aligned) (ha' : t'.Aligned)
    (hl : t'.length = t.length) (hheld : ∀ i, (t'.slot? i).isSome = (t.slot? i).isSome) :
    t'.vacancy = t.vacancy := by
  unfold vacancy
  simp only [ha.isNull_key, ha'.isNull_key, hheld, hl]

namespace CodeMap

variable [BEq V] [BEq V'] {m : CodeMap w V} {m' : CodeMap w V'}

/-- The two maps agree up to the order of the keys within runs of held slots. -/
structure LayoutAgrees (m : CodeMap w V) (m' : CodeMap w V') : Prop where
  held : ∀ i, (m'.table.slot? i).isSome = (m.table.slot? i).isSome
  produced : ∀ stop limit, m'.iter.producedBefore stop limit = m.iter.producedBefore stop limit
  walker_eq : m'.walker = m.walker
  joined : ∀ i j e e', m.table.slot? i = some e → m'.table.slot? j = some e' → e'.key = e.key →
    m.table.Joined i j

theorem Valid.iter_nonnull (h : m.Valid) :
    ∀ i e, m.iter.slot? i = some e → e.key.isNull = false := by
  intro i e he
  rw [slot?_iter h.table.aligned] at he
  apply Bool.of_not_eq_true
  rw [CodeUnit.isNull_iff]
  exact Table.nonnull_of_slot? he

theorem Valid.layoutAgrees (h : m.Valid) (h' : m'.Valid)
    (hkeys : ∀ key, key ≠ .null w → m'.contains key = m.contains key)
    (hcap : m'.capacity = m.capacity) : m.LayoutAgrees m' := by
  have hperm := h.keys_perm h' hkeys
  have hheld := h.table.isSome_slot?_eq h.hasVacancy h'.table.toArranged h'.hasVacancy hcap hperm
  have hsize := h.size_eq_of_perm h' hperm
  refine ⟨hheld, ?_, ?_, ?_⟩
  · have hslots : ∀ i, (m'.iter.slot? i).isSome = (m.iter.slot? i).isSome := by
      intro i
      rw [slot?_iter h.table.aligned, slot?_iter h'.table.aligned, hheld i]
    have halike : m.iter.Alike m'.iter := ⟨rfl, hcap, hslots, h.iter_nonnull, h'.iter_nonnull⟩
    exact halike.producedBefore
  · have hfirst := h.table.aligned.vacancy_eq h'.table.aligned hcap hheld
    simp only [walker, hcap, hsize, hfirst]
  · intro i j e e' hi hj hk
    exact h.table.joined h'.table.toArranged hcap hheld hi hj hk

end CodeMap

end LexBase
