import LexBase.CodeMap.Iter
import LexBase.Proofs.Search
import LexBase.Proofs.Table.Probe

/-!
# The run of an iterator

The entries that an iterator has not passed are a list. The next call takes its head; the number
that the iterator keeps is the length of the list, so it is positive whenever it is counted down.
Calls until there is no answer yield the whole list, and the null key after it.
-/

namespace LexBase

set_option autoImplicit false

variable {w : Width} {V : Type}

/-- The entry of the null key, if it has a value to show. -/
def nullItems (null : Option V) : List (Entry w V) := null.toList.map fun v => ⟨.null w, v⟩

theorem length_nullItems (null : Option V) :
    (nullItems null : List (Entry w V)).length = if null.isSome then 1 else 0 := by
  cases null <;> rfl

theorem mem_nullItems (null : Option V) (e : Entry w V) :
    e ∈ nullItems null ↔ e.key = .null w ∧ null = some e.value := by
  obtain ⟨key, value⟩ := e
  cases null with
  | none => simp [nullItems]
  | some v => simp [nullItems, eq_comm]

namespace Iter

variable {it it' : Iter w V} {e : Entry w V}

def rest (it : Iter w V) : List (Entry w V) :=
  (List.range' it.index (it.keys.size - it.index)).filterMap it.slot?

inductive Nexts (it : Iter w V) : Option (Entry w V × Iter w V) → Prop where
  | slot {i : Nat} {e : Entry w V} : i < it.keys.size →
      it.rest = e :: Iter.rest { it with index := i + 1, remaining := it.remaining - 1 } →
      Nexts it (some (e, { it with index := i + 1, remaining := it.remaining - 1 }))
  | null {v : V} : it.rest = [] → it.null = some v →
      Nexts it (some (⟨.null w, v⟩, { it with index := it.keys.size, null := none }))
  | done : it.rest = [] → it.null = none → Nexts it none

theorem nexts (h : it.index ≤ it.keys.size) : it.Nexts it.next? := by
  unfold next?
  simp only
  cases hf : firstSome (fun i => (it.slot? i).map fun e => (i, e)) it.index
      (it.keys.size - it.index) with
  | some found =>
    obtain ⟨i, e⟩ := found
    obtain ⟨hlt, _, hrest⟩ := filterMap_eq_cons_of_firstSome hf
    rw [Nat.add_sub_cancel' h] at hlt hrest
    exact .slot hlt hrest
  | none =>
    have hrest := filterMap_eq_nil_of_firstSome hf
    cases hn : it.null with
    | some v => exact .null hrest hn
    | none => exact .done hrest hn

structure Counts (it : Iter w V) : Prop where
  size_eq : it.values.size = it.keys.size
  index_le : it.index ≤ it.keys.size
  remaining_eq : it.remaining = it.rest.length

theorem Counts.next (h : it.Counts) (hn : it.next? = some (e, it')) : it'.Counts := by
  have hcases := nexts h.index_le
  rw [hn] at hcases
  cases hcases with
  | slot hlt hrest =>
    refine ⟨h.size_eq, hlt, ?_⟩
    have hcount := h.remaining_eq
    rw [hrest, List.length_cons] at hcount
    exact Nat.sub_eq_of_eq_add hcount
  | null hrest _ =>
    refine ⟨h.size_eq, Nat.le_refl _, ?_⟩
    have hcount := h.remaining_eq
    rw [hrest] at hcount
    simpa [rest] using hcount

inductive Yields (it : Iter w V) : Iter w V → Prop where
  | refl : Yields it it
  | next {it' it'' : Iter w V} {e : Entry w V} :
      Yields it it' → it'.next? = some (e, it'') → Yields it it''

theorem Counts.yields (h : it.Counts) (hy : it.Yields it') : it'.Counts := by
  induction hy with
  | refl => exact h
  | next _ hn ih => exact ih.next hn

theorem Counts.remaining_pos (h : it.Counts) {i : Nat} (hi : it.index ≤ i)
    (he : it.slot? i = some e) : 0 < it.remaining := by
  have hlt : i < it.keys.size := by
    by_contra hn
    have hout : it.values.size ≤ i := h.size_eq ▸ Nat.le_of_not_lt hn
    have hvalue : it.values.getD i none = none := by
      rw [Array.getD_eq_getD_getElem?, Array.getElem?_eq_none hout, Option.getD_none]
    rw [slot?, hvalue] at he
    cases he
  have hmem : e ∈ it.rest := by
    refine List.mem_filterMap.mpr ⟨i, ?_, he⟩
    rw [List.mem_range'_1]
    omega
  rw [h.remaining_eq]
  exact List.length_pos_of_mem hmem

/-- Calls of `next?` until there is no answer, with what they produce. -/
inductive Drains : Iter w V → List (Entry w V) → Prop where
  | done {it : Iter w V} : it.next? = none → Drains it []
  | next {it it' : Iter w V} {e : Entry w V} {es : List (Entry w V)} :
      it.next? = some (e, it') → Drains it' es → Drains it (e :: es)

/-- All that is still to come: the entries in the table, and the null key. -/
def items (it : Iter w V) : List (Entry w V) := it.rest ++ nullItems it.null

theorem Counts.length_eq (h : it.Counts) : it.length = it.items.length := by
  rw [length, h.remaining_eq, items, List.length_append, length_nullItems]

theorem Counts.next_items (h : it.Counts) :
    it.next? = none ∧ it.items = [] ∨
      ∃ e it', it.next? = some (e, it') ∧ it'.Counts ∧ it.items = e :: it'.items := by
  have hn := nexts h.index_le
  have hc : ∀ {e it'}, it.next? = some (e, it') → it'.Counts := h.next
  generalize it.next? = answer at hn hc ⊢
  cases hn with
  | slot _ hrest =>
    refine Or.inr ⟨_, _, rfl, hc rfl, ?_⟩
    rw [items, hrest]
    rfl
  | null hrest hnull =>
    refine Or.inr ⟨_, _, rfl, hc rfl, ?_⟩
    rw [items, hrest, hnull]
    simp [items, rest, nullItems]
  | done hrest hnull =>
    apply Or.inl
    rw [items, hrest, hnull]
    exact ⟨rfl, rfl⟩

theorem Counts.drains (h : it.Counts) : it.Drains it.items := by
  generalize hitems : it.items = es
  induction es generalizing it with
  | nil =>
    rcases h.next_items with ⟨hnone, _⟩ | ⟨e, it', _, _, hcons⟩
    · exact .done hnone
    · rw [hitems] at hcons
      cases hcons
  | cons e es ih =>
    rcases h.next_items with ⟨_, hnil⟩ | ⟨e', it', hsome, hcounts, hcons⟩
    · rw [hitems] at hnil
      cases hnil
    · rw [hitems] at hcons
      obtain ⟨rfl, htail⟩ := List.cons.inj hcons
      exact .next hsome (ih hcounts htail.symm)

end Iter

namespace CodeMap

variable [BEq V]

variable {m : CodeMap w V}

/-- In an aligned table the values tell which slots are held, as the keys do. -/
theorem slot?_iter (h : m.table.Aligned) (i : Nat) : m.iter.slot? i = m.table.slot? i := by
  change (m.table.value? i).map (fun v => ⟨m.table.key i, v⟩) = m.table.slot? i
  cases hs : m.table.slot? i with
  | some e =>
    rw [Table.value?_of_slot? hs, Table.key_of_slot? hs]
    rfl
  | none =>
    rw [h.value?_eq_none (h.slot?_eq_none_iff.mp hs)]
    rfl

theorem rest_iter (h : m.table.Aligned) : m.iter.rest = m.table.entries := by
  rw [Table.entries_eq_filterMap, List.range_eq_range']
  exact List.filterMap_congr fun i _ => slot?_iter h i

theorem iter_counts (h : m.table.Valid) : m.iter.Counts := by
  refine ⟨h.aligned.size_eq, Nat.zero_le _, ?_⟩
  rw [rest_iter h.aligned]
  exact h.counted

end CodeMap

end LexBase
