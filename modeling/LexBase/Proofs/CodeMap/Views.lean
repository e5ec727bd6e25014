import LexBase.Proofs.Session.Reachable

/-!
# Views of a map

A map can be asked key by key, listed, iterated and walked. Each view decides by something else what is
there: a probe, the count, the slots, the value of the null key. In a valid map all of them show the
same entries. An iterator and a walker differ only in where in the table they begin.
-/

namespace LexBase

set_option autoImplicit false

variable {w : Width} {V : Type} [BEq V]

namespace Walker

variable {c : Walker w} {m : CodeMap w V}

inductive Drains (m : CodeMap w V) : Walker w → List (Entry w V) → Prop where
  | done {c c' : Walker w} : c.next m = (.error .exhausted, c') → Drains m c []
  | next {c c' : Walker w} {e : Entry w V} {es : List (Entry w V)} :
      c.next m = (.ok e, c') → Drains m c' es → Drains m c (e :: es)

def items (c : Walker w) (m : CodeMap w V) : List (Entry w V) :=
  c.rest m ++ if c.nullVisited then [] else nullItems m.presentNull

theorem On.next_items (h : c.On m) :
    (∃ c', c.next m = (.error .exhausted, c')) ∧ c.items m = [] ∨
      ∃ e c', c.next m = (.ok e, c') ∧ c'.On m ∧ c.items m = e :: c'.items m := by
  have hn := h.nexts
  generalize c.next m = answer at hn ⊢
  cases hn with
  | @entry e c' hon _ _ hrest hv =>
    refine Or.inr ⟨e, c', rfl, hon, ?_⟩
    rw [items, items, hrest, hv]
    rfl
  | @null v c' hon _ hrest hrest' hv hp hv' =>
    refine Or.inr ⟨_, c', rfl, hon, ?_⟩
    rw [items, items, hrest, hrest', hv, hv', hp]
    rfl
  | @exhausted c' _ _ hrest _ hnull _ =>
    refine Or.inl ⟨⟨c', rfl⟩, ?_⟩
    rw [items, hrest]
    rcases hnull with hv | hp
    · rw [hv]
      rfl
    · rw [hp]
      cases c.nullVisited <;> rfl

theorem On.drains (h : c.On m) : Drains m c (c.items m) := by
  generalize hitems : c.items m = es
  induction es generalizing c with
  | nil =>
    rcases h.next_items with ⟨⟨c', hnext⟩, _⟩ | ⟨e, c', _, _, hcons⟩
    · exact .done hnext
    · rw [hitems] at hcons
      cases hcons
  | cons e es ih =>
    rcases h.next_items with ⟨_, hnil⟩ | ⟨e', c', hnext, hon, hcons⟩
    · rw [hitems] at hnil
      cases hnil
    · rw [hitems] at hcons
      obtain ⟨rfl, htail⟩ := List.cons.inj hcons
      exact .next hnext (ih hon htail.symm)

end Walker

namespace CodeMap

variable {m : CodeMap w V} {s : Contents w V} {e : Entry w V}

def Holds (m : CodeMap w V) (e : Entry w V) : Prop := m.contains e.key = true ∧ m.get e.key = e.value

theorem Represents.holds_iff (h : m.Represents s) (e : Entry w V) :
    m.Holds e ↔ s.present e.key = some e.value := by
  have hstored : ∀ v, s.present e.key = some v → s.stored e.key = some v := by
    intro v
    unfold Contents.present Contents.stored Contents.presentNull
    split
    · exact fun hp => (Option.filter_eq_some_iff.mp hp).1
    · exact id
  rw [Holds, h.contains_eq, h.get_eq, Option.isSome_iff_exists]
  constructor
  · rintro ⟨⟨v, hv⟩, hget⟩
    rw [hstored v hv, Option.getD_some] at hget
    rw [hv, hget]
  · intro hv
    refine ⟨⟨_, hv⟩, ?_⟩
    rw [hstored _ hv, Option.getD_some]

theorem Valid.mem_toList_iff (h : m.Valid) (e : Entry w V) : e ∈ m.toList ↔ m.Holds e := by
  have hr := h.represents
  rw [hr.holds_iff, Contents.present]
  change e ∈ m.table.entries ++ nullItems m.presentNull ↔ _
  rw [List.mem_append, mem_nullItems]
  split
  · next hk =>
    rw [← hr.presentNull_eq]
    constructor
    · rintro (hmem | ⟨_, hv⟩)
      · exact absurd hk (h.table.nonnull e hmem)
      · exact hv
    · exact fun hv => Or.inr ⟨hk, hv⟩
  · next hk =>
    rw [← hr.mem_iff]
    constructor
    · rintro (hmem | ⟨hnull, _⟩)
      · exact hmem
      · exact absurd hnull hk
    · exact Or.inl

theorem Valid.toList_distinct (h : m.Valid) : (m.toList.map Entry.key).Nodup := by
  change ((m.table.entries ++ nullItems m.presentNull).map Entry.key).Nodup
  rw [List.map_append, List.nodup_append]
  refine ⟨h.table.distinct, ?_, ?_⟩
  · cases m.presentNull <;> simp [nullItems]
  · rintro a ha b hb rfl
    obtain ⟨f, hf, rfl⟩ := List.mem_map.mp hb
    rw [((mem_nullItems _ f).mp hf).1] at ha
    exact h.null_not_mem ha

/-- The views of a map that shows these entries of the table and this value of the null key. -/
structure Shows (m : CodeMap w V) (es : List (Entry w V)) (null : Option V) : Prop where
  iterated : m.iter.Drains (es ++ nullItems null)
  listed : m.toList = es ++ nullItems null
  /-- At every point of an iteration its length is the number of items still to come. -/
  remaining : ∀ it, m.iter.Yields it → ∃ items, it.Drains items ∧ it.length = items.length
  holds_iff : ∀ e, e ∈ es ++ nullItems null ↔ m.Holds e
  distinct : ((es ++ nullItems null).map Entry.key).Nodup
  nonnull : ∀ e ∈ es, e.key ≠ .null w
  null_iff : null.isSome = m.contains (.null w)
  ascending : ∃ slots : List Nat, slots.Pairwise (· < ·) ∧ slots.map m.table.slot? = es.map some
  size_eq : m.size = es.length
  keys_eq : ∃ us, us.Perm (es.map Entry.key) ∧ (us.Pairwise fun u v => u.toNat < v.toNat) ∧
    m.keys = us ++ if null.isSome then [.null w] else []
  walked : ∃ es', es ~r es' ∧ Walker.Drains m m.walker (es' ++ nullItems null)

theorem Valid.shows (h : m.Valid) : m.Shows m.table.entries m.presentNull := by
  have hr := h.represents
  have hcounts := iter_counts h.table
  constructor
  · have hd := hcounts.drains
    rwa [Iter.items, rest_iter h.table.aligned] at hd
  · rfl
  · intro it hy
    have hc := hcounts.yields hy
    exact ⟨it.items, hc.drains, hc.length_eq⟩
  · exact h.mem_toList_iff
  · exact h.toList_distinct
  · exact fun _ => Table.nonnull
  · rw [contains, if_pos ((CodeUnit.isNull_iff _).mpr rfl)]
  · exact m.table.entries_ascending
  · exact h.table.counted
  · refine ⟨m.contents.members, hr.keys_perm.symm, m.contents.members_ascending, ?_⟩
    rw [hr.keys_eq, Contents.keys, hr.presentNull_eq]
  · exact ⟨_, m.table.tour_zero_isRotated m.walker.start, (Walker.on_walker h).drains⟩

end CodeMap

namespace Session

variable {s : Session w V} {m : CodeMap w V}

/-- All views of a map of a reachable session agree. -/
theorem reachable_shows (h : s.Reachable) (hm : m ∈ s.maps) : ∃ es null, m.Shows es null :=
  ⟨_, _, (h.valid m hm).shows⟩

/-- A run of keys around the end of the table, another key, and the null key. -/
def runAroundEnd : Session .byte Nat :=
  (Session.addMap ⟨[], []⟩ (.empty 0)).session.after
    [(0, .insert 74 1), (0, .insert 133 2), (0, .insert 28 3), (0, .insert 7 4), (0, .insert 0 5)]

theorem runAroundEnd_shows : ∃ m es null, runAroundEnd.maps[0]? = some m ∧ m.walker.start = 3 ∧
    (es ++ nullItems null).map Entry.key = [133, 28, 7, 74, 0] ∧ m.Shows es null := by
  have hreach : runAroundEnd.Reachable := .after (.addMap .start (.empty 0)) _
  have hkeys : runAroundEnd.maps[0]?.map (fun m => (m.walker.start, m.toList.map Entry.key)) =
      some (3, [133, 28, 7, 74, 0]) := by decide +kernel
  obtain ⟨m, hm, hlist⟩ := Option.map_eq_some_iff.mp hkeys
  obtain ⟨hstart, hkeys'⟩ := Prod.mk.inj hlist
  obtain ⟨es, null, hshows⟩ := reachable_shows hreach (List.mem_of_getElem? hm)
  rw [hshows.listed] at hkeys'
  exact ⟨m, es, null, hm, hstart, hkeys', hshows⟩

end Session

end LexBase
