import LexBase.Proofs.CodeMap.Evolution
import LexBase.Proofs.Walker.Walks

/-!
# A walk that is underway

The trail of a walk is what its walker has produced so far. The keys of the trail and those still
ahead are at every point the keys that the walk began with: a call of next moves a key from one to
the other, a removal only changes the order of those ahead, and other calls may change values and
the null key.
-/

namespace LexBase

set_option autoImplicit false

variable {w : Width} {V : Type}

/-- The produced entries, whether the end was met, and the key at which the walker stands. -/
structure Trail (w : Width) (V : Type) where
  produced : List (Entry w V)
  ended : Bool
  latest : Option (CodeUnit w)

def Trail.keys (t : Trail w V) : List (CodeUnit w) := t.produced.map Entry.key

inductive Trail.Extends (t : Trail w V) : Except WalkError (Entry w V) → Trail w V → Prop where
  | produced (e : Entry w V) : Extends t (.ok e) ⟨t.produced ++ [e], t.ended, some e.key⟩
  | exhausted : Extends t (.error .exhausted) ⟨t.produced, true, none⟩

namespace Walker

variable {c : Walker w} {m m' : CodeMap w V} {e : Entry w V} {keys : List (CodeUnit w)}
  {t : Trail w V}

theorem onward_key (hs : m.SameSlots m') (start o : Nat) :
    (m'.table.onward? start o).map Entry.key = (m.table.onward? start o).map Entry.key := by
  unfold Table.onward?
  rw [hs.length_eq]
  exact hs.key_eq _

theorem On.of_sameSlots (h : c.On m) (hv : m'.Valid) (hs : m.SameSlots m') : c.On m' := by
  refine ⟨hv, h.expected_eq.trans hs.size_eq.symm, h.span_eq.trans hs.length_eq.symm,
    ⟨?_, ?_⟩, h.offset_le⟩
  · rw [hs.length_eq]
    exact h.based.start_lt
  · have hlast := onward_key hs c.start (m.table.length - 1)
    rw [h.based.last_vacant, Option.map_none, Option.map_eq_none_iff] at hlast
    rw [hs.length_eq]
    exact hlast

theorem rest_keys (c : Walker w) (hs : m.SameSlots m') :
    (c.rest m').map Entry.key = (c.rest m).map Entry.key := by
  unfold rest Table.tour
  rw [List.map_filterMap, List.map_filterMap, hs.length_eq]
  exact List.filterMap_congr fun o _ => onward_key hs c.start o

variable [BEq V]

theorem At.of_sameSlots (ha : c.At m e) (hk : e.key ≠ .null w) (hs : m.SameSlots m') :
    ∃ e', c.At m' e' ∧ e'.key = e.key := by
  cases ha with
  | @slot o e hc ho he =>
    have hat := onward_key hs c.start o
    rw [he, Option.map_some, Option.map_eq_some_iff] at hat
    obtain ⟨e', he', hkey⟩ := hat
    exact ⟨e', .slot hc ho he', hkey⟩
  | null _ _ => exact absurd rfl hk

inductive Stands (c : Walker w) (m : CodeMap w V) : Option (CodeUnit w) → Prop where
  | nowhere : c.current = none → Stands c m none
  | entry {e : Entry w V} : c.At m e → e.key ≠ .null w → Stands c m (some e.key)

/-- A walk that began with the given non-null keys, in the table or past it. -/
inductive Underway (c : Walker w) (m : CodeMap w V) (keys : List (CodeUnit w)) :
    Trail w V → Prop where
  | inside {es : List (Entry w V)} {latest : Option (CodeUnit w)} : c.On m →
      (es.map Entry.key ++ (c.rest m).map Entry.key).Perm keys → c.nullVisited = false →
      c.Stands m latest → Underway c m keys ⟨es, false, latest⟩
  | past {es nulls : List (Entry w V)} {ended : Bool} {latest : Option (CodeUnit w)} : c.On m →
      (es.map Entry.key).Perm keys → c.rest m = [] → c.nullVisited = true →
      (ended = true ∧ nulls = [] ∨ ∃ v, nulls = [⟨.null w, v⟩]) →
      (latest = none ∧ c.current = none ∨
        latest = some (.null w) ∧ c.current = some .null) →
      Underway c m keys ⟨es ++ nulls, ended, latest⟩

theorem underway_walker (h : m.Valid) :
    m.walker.Underway m (m.table.entries.map Entry.key) ⟨[], false, none⟩ := by
  refine .inside (on_walker h) ?_ rfl (.nowhere rfl)
  exact (rest_walker_perm h).map Entry.key

namespace Underway

theorem on (hu : c.Underway m keys t) : c.On m := by
  cases hu with
  | inside h _ _ _ => exact h
  | past h _ _ _ _ _ => exact h

theorem of_sameSlots (hu : c.Underway m keys t) (hv : m'.Valid) (hs : m.SameSlots m') :
    c.Underway m' keys t := by
  cases hu with
  | inside h hp hn hst =>
    refine .inside (h.of_sameSlots hv hs) ?_ hn ?_
    · rw [c.rest_keys hs]
      exact hp
    · cases hst with
      | nowhere hc => exact .nowhere hc
      | entry ha hk =>
        obtain ⟨e', ha', hkey⟩ := ha.of_sameSlots hk hs
        rw [← hkey] at hk ⊢
        exact .entry ha' hk
  | past h hp hrest hn hnulls hst =>
    have hkeys := c.rest_keys hs
    rw [hrest, List.map_nil, List.map_eq_nil_iff] at hkeys
    exact .past (h.of_sameSlots hv hs) hp hkeys hn hnulls hst

theorem next (hu : c.Underway m keys t) :
    ∃ t', t.Extends (c.next m).1 t' ∧ (c.next m).2.Underway m keys t' := by
  have hn := hu.on.nexts
  generalize c.next m = outcome at hn ⊢
  cases hu with
  | @inside es _ h hp hv hst =>
    cases hn with
    | @entry e c' hon hat hk hrest hv' =>
      refine ⟨_, .produced e, .inside hon ?_ (hv'.trans hv) (.entry hat hk)⟩
      rw [hrest] at hp
      simpa using hp
    | @null v c' hon hc hrest hrest' _ _ hv' =>
      rw [hrest, List.map_nil, List.append_nil] at hp
      exact ⟨_, .produced ⟨.null w, v⟩,
        .past hon hp hrest' hv' (Or.inr ⟨v, rfl⟩) (Or.inr ⟨rfl, hc⟩)⟩
    | @exhausted c' hon hc hrest hrest' _ hv' =>
      rw [hrest, List.map_nil, List.append_nil] at hp
      have hpast : c'.Underway m keys ⟨es ++ [], true, none⟩ :=
        .past hon hp hrest' hv' (Or.inl ⟨rfl, rfl⟩) (Or.inl ⟨rfl, hc⟩)
      rw [List.append_nil] at hpast
      exact ⟨_, .exhausted, hpast⟩
  | past h hp hrest hv hnulls hst =>
    cases hn with
    | entry _ _ _ hcons _ =>
      rw [hrest] at hcons
      cases hcons
    | null _ _ _ _ hv' _ _ =>
      rw [hv] at hv'
      cases hv'
    | @exhausted c' hon hc _ hrest' _ hv' =>
      refine ⟨_, .exhausted, .past hon hp hrest' hv' ?_ (Or.inl ⟨rfl, hc⟩)⟩
      rcases hnulls with ⟨_, hnil⟩ | hnull
      · exact Or.inl ⟨rfl, hnil⟩
      · exact Or.inr hnull

theorem remove (hu : c.Underway m keys t) :
    (c.remove m).walker.Underway (c.remove m).map keys { t with latest := none } := by
  cases hu with
  | inside h hp hv hst =>
    cases hst with
    | nowhere hc =>
      rw [h.remove_none hc]
      exact .inside ⟨h.valid, h.expected_eq, h.span_eq, h.based, h.offset_le⟩ hp hv (.nowhere rfl)
    | entry ha _ =>
      have hl := h.leaves ha h.valid.represents
      refine .inside hl.on ?_ (hl.nullVisited_eq.trans hv) (.nowhere hl.current_eq)
      exact ((hl.rest_perm.map Entry.key).append_left _).trans hp
  | past h hp hrest hv hnulls hst =>
    rcases hst with ⟨_, hc⟩ | ⟨_, hc⟩
    · rw [h.remove_none hc]
      exact .past ⟨h.valid, h.expected_eq, h.span_eq, h.based, h.offset_le⟩ hp hrest hv hnulls
        (Or.inl ⟨rfl, rfl⟩)
    · rw [h.remove_null hc]
      exact .past (h.without_null none) hp hrest hv hnulls (Or.inl ⟨rfl, rfl⟩)

end Underway

end Walker

end LexBase
