import LexBase.Proofs.Table.Probe
import LexBase.Table.Rehash

/-!
# Insertion and rehashing

Writing an entry where a probe for its key ends keeps a table valid. Rehashing is a run of such
writes: the first pass occupies home slots only, and each probe of the second pass ends at a
vacant slot. So the new table is valid and holds the entries of the old one, whatever the layout
of the old one was.
-/

namespace LexBase

set_option autoImplicit false

variable {w : Width} {V : Type}

def Entry.cell (e : Entry w V) : Cell w V := (e.key, some e.value)

namespace Table

variable {t : Table w V}

theorem Reaches.mono {t' : Table w V} {key : CodeUnit w} {i : Nat} (hl : t'.length = t.length)
    (hgain : ∀ k, (t.slot? k).isSome → (t'.slot? k).isSome) (h : t.Reaches key i) :
    t'.Reaches key i := by
  intro j hj
  rw [hl] at hj ⊢
  unfold onward?
  rw [hl]
  exact hgain _ (h j hj)

theorem isSome_slot?_fill (ha : t.Aligned) {i : Nat} (hi : i < t.length) {key : CodeUnit w}
    (hk : key ≠ .null w) (v : V) (k : Nat) (h : (t.slot? k).isSome) :
    ((t.fill i key (some v)).slot? k).isSome := by
  rw [slot?_fill ha hi hk]
  split
  · rfl
  · exact h

theorem isSome_slot?_store (ha : t.Aligned) {i : Nat} {e : Entry w V} (he : t.slot? i = some e)
    (v : V) (k : Nat) (h : (t.slot? k).isSome) : ((t.store i v).slot? k).isSome := by
  rw [slot?_store ha he]
  split
  · rfl
  · exact h

namespace Arranged

theorem empty (n : Nat) : (Table.empty n : Table w V).Arranged where
  aligned := .empty n
  distinct := by simp
  reached i e h := by simp at h

theorem nonnull (_ : t.Arranged) : ∀ e ∈ t.entries, e.key ≠ .null w := fun _ => Table.nonnull

theorem with_count (hv : t.Arranged) (count : Nat) : ({ t with count := count } : Table w V).Arranged :=
  ⟨⟨hv.aligned.size_eq, hv.aligned.none_iff⟩, hv.distinct, hv.reached⟩

theorem fill (hv : t.Arranged) {i : Nat} {e : Entry w V} (hi : i < t.length)
    (hvac : t.slot? i = none) (hreach : t.Reaches e.key i) (hnull : e.key ≠ .null w)
    (habs : ∀ e' ∈ t.entries, e'.key ≠ e.key) : (t.fill i e.key (some e.value)).Arranged := by
  have hp := entries_fill hv.aligned hi hvac hnull e.value
  have hgain := isSome_slot?_fill hv.aligned hi hnull e.value
  refine ⟨hv.aligned.fill_some i hnull e.value, ?_, ?_⟩
  · rw [(hp.map Entry.key).nodup_iff, List.map_cons, List.nodup_cons]
    refine ⟨?_, hv.distinct⟩
    intro hmem
    obtain ⟨e', he', hk⟩ := List.mem_map.mp hmem
    exact habs e' he' hk
  · intro k e' hk
    rw [slot?_fill hv.aligned hi hnull] at hk
    split at hk
    · next heq =>
      obtain rfl := Option.some.inj hk
      rw [← heq]
      exact hreach.mono (length_fill t i _ _) hgain
    · exact (hv.reached k e' hk).mono (length_fill t i _ _) hgain

theorem store (hv : t.Arranged) {i : Nat} {e : Entry w V} (h : t.slot? i = some e) (v : V) :
    (t.store i v).Arranged := by
  have hgain := isSome_slot?_store hv.aligned h v
  obtain ⟨rest, hp, hp'⟩ := entries_store hv.aligned h v
  have hkeys := (hp'.map Entry.key).trans (hp.map Entry.key).symm
  refine ⟨hv.aligned.store h v, hkeys.nodup_iff.mpr hv.distinct, ?_⟩
  intro k f hf
  rw [slot?_store hv.aligned h] at hf
  split at hf
  · next heq =>
    obtain rfl := Option.some.inj hf
    rw [← heq]
    exact (hv.reached i e h).mono (length_store t i v) hgain
  · exact (hv.reached k f hf).mono (length_store t i v) hgain

end Arranged

namespace Valid

theorem empty (n : Nat) : (Table.empty n : Table w V).Valid :=
  ⟨.empty n, (congrArg List.length (entries_empty n)).symm⟩

theorem occupy (hv : t.Valid) {i : Nat} {e : Entry w V} (hi : i < t.length)
    (hvac : t.slot? i = none) (hreach : t.Reaches e.key i) (hnull : e.key ≠ .null w)
    (habs : ∀ e' ∈ t.entries, e'.key ≠ e.key) : (t.occupy i e).Valid := by
  refine ⟨(hv.fill hi hvac hreach hnull habs).with_count (t.count + 1), ?_⟩
  rw [(entries_occupy hv.aligned hi hvac hnull).length_eq, List.length_cons, ← hv.counted]
  rfl

theorem store (hv : t.Valid) {i : Nat} {e : Entry w V} (h : t.slot? i = some e) (v : V) :
    (t.store i v).Valid := by
  obtain ⟨rest, hp, hp'⟩ := entries_store hv.aligned h v
  refine ⟨hv.toArranged.store h v, ?_⟩
  have hcount := hv.counted
  rw [hp.length_eq, List.length_cons] at hcount
  rw [hp'.length_eq, List.length_cons]
  exact hcount

end Valid

structure Stores (t : Table w V) (n : Nat) (es : List (Entry w V)) : Prop where
  arranged : t.Arranged
  length_eq : t.length = n
  perm : t.entries.Perm es

namespace Stores

variable {n : Nat} {es : List (Entry w V)} {e : Entry w V}

theorem fill (h : t.Stores n es) {i : Nat} (hi : i < t.length) (hvac : t.slot? i = none)
    (hreach : t.Reaches e.key i) (hnull : e.key ≠ .null w) (habs : e.key ∉ es.map Entry.key) :
    (t.fill i e.key (some e.value)).Stores n (e :: es) where
  arranged := h.arranged.fill hi hvac hreach hnull fun e' he' hk =>
    habs (List.mem_map.mpr ⟨e', h.perm.mem_iff.mp he', hk⟩)
  length_eq := by rw [length_fill, h.length_eq]
  perm := (entries_fill h.arranged.aligned hi hvac hnull e.value).trans (h.perm.cons e)

theorem with_count (h : t.Stores n es) (count : Nat) : ({ t with count := count } : Table w V).Stores n es :=
  ⟨h.arranged.with_count count, h.length_eq, h.perm⟩

theorem hasVacancy (h : t.Stores n es) (hlt : es.length < n) : t.HasVacancy :=
  hasVacancy_of_lt (by rw [h.perm.length_eq, h.length_eq]; exact hlt)

theorem probe_fresh (h : t.Stores n es) (hlt : es.length < n) (habs : e.key ∉ es.map Entry.key) :
    ∃ i, t.probe e.key = some (.vacant i) ∧ t.EndsVacant e.key i := by
  rcases probe_cases h.arranged.aligned (h.hasVacancy hlt) e.key with ⟨i, e', _, he', hk⟩ | hvacant
  · have hmem : e' ∈ es := h.perm.mem_iff.mp (mem_entries.mpr ⟨i, he'⟩)
    exact absurd (List.mem_map.mpr ⟨e', hmem, hk⟩) habs
  · exact hvacant

theorem place (h : t.Stores n es) (hlt : es.length < n) (hnull : e.key ≠ .null w)
    (habs : e.key ∉ es.map Entry.key) : (t.place e.cell).Stores n (e :: es) := by
  obtain ⟨i, hp, hend⟩ := h.probe_fresh hlt habs
  have hplace : t.place e.cell = t.fill i e.key (some e.value) := by
    simp only [Table.place, Entry.cell, hp]
  rw [hplace]
  exact h.fill hend.lt_length hend.vacant hend.reaches hnull habs

end Stores

end Table

structure Placeable (es : List (Entry w V)) : Prop where
  nonnull : ∀ e ∈ es, e.key ≠ .null w
  distinct : (es.map Entry.key).Nodup

namespace Placeable

variable {es : List (Entry w V)} {e : Entry w V}

theorem perm {es' : List (Entry w V)} (h : Placeable es) (hp : es.Perm es') : Placeable es' where
  nonnull e he := h.nonnull e (hp.mem_iff.mpr he)
  distinct := (hp.map Entry.key).nodup_iff.mp h.distinct

theorem of_arranged {t : Table w V} (h : t.Arranged) : Placeable t.entries :=
  ⟨fun _ => Table.nonnull, h.distinct⟩

theorem head_not_mem (h : Placeable (e :: es)) : e.key ∉ es.map Entry.key := by
  have hd := h.distinct
  rw [List.map_cons, List.nodup_cons] at hd
  exact hd.1

theorem tail (h : Placeable (e :: es)) : Placeable es := by
  have hd := h.distinct
  rw [List.map_cons, List.nodup_cons] at hd
  exact ⟨fun f hf => h.nonnull f (List.mem_cons_of_mem e hf), hd.2⟩

theorem left {es' : List (Entry w V)} (h : Placeable (es ++ es')) : Placeable es := by
  have hd := h.distinct
  rw [List.map_append] at hd
  exact ⟨fun f hf => h.nonnull f (List.mem_append_left _ hf), hd.of_append_left⟩

theorem head_nonnull (h : Placeable (e :: es)) : e.key ≠ .null w := h.nonnull e List.mem_cons_self

end Placeable

namespace Rehash

theorem settle_of_vacant {r : Rehash w V} {c : Cell w V}
    (h : r.table.key (home r.table.length c.1) = .null w) :
    r.settle c = ⟨r.table.fill (home r.table.length c.1) c.1 c.2, r.delayed⟩ := by
  obtain ⟨t, delayed⟩ := r
  exact if_pos ((CodeUnit.isNull_iff _).mpr h)

theorem settle_of_held {r : Rehash w V} {c : Cell w V}
    (h : r.table.key (home r.table.length c.1) ≠ .null w) :
    r.settle c = ⟨r.table, r.delayed.push c⟩ := by
  obtain ⟨t, delayed⟩ := r
  exact if_neg fun hnull => h ((CodeUnit.isNull_iff _).mp hnull)

/-- The first pass after the entries in `seen`: each is in the new table or set aside. -/
def Passed (r : Rehash w V) (n : Nat) (seen : List (Entry w V)) : Prop :=
  ∃ settled aside, r.table.Stores n settled ∧ r.delayed.toList = aside.map Entry.cell ∧
    (settled ++ aside).Perm seen

theorem Passed.settle {r : Rehash w V} {n : Nat} {seen : List (Entry w V)} {e : Entry w V}
    (hn : 0 < n) (h : r.Passed n seen) (hp : Placeable (e :: seen)) :
    (r.settle e.cell).Passed n (e :: seen) := by
  obtain ⟨settled, aside, hs, haside, hperm⟩ := h
  have hlen := hs.length_eq
  have hh : home r.table.length e.key < r.table.length := Table.home_lt (by omega)
  by_cases hnull : r.table.key (home r.table.length e.key) = .null w
  · rw [settle_of_vacant (c := e.cell) hnull]
    have hreach : r.table.Reaches e.key (home r.table.length e.key) := by
      intro j hj
      rw [distance_self hh] at hj
      exact absurd hj (Nat.not_lt_zero j)
    refine ⟨e :: settled, aside, hs.fill hh (Table.slot?_of_null hnull) hreach hp.head_nonnull ?_, haside,
      hperm.cons e⟩
    intro hmem
    obtain ⟨e', he', hk⟩ := List.mem_map.mp hmem
    exact hp.head_not_mem
      (List.mem_map.mpr ⟨e', hperm.mem_iff.mp (List.mem_append_left _ he'), hk⟩)
  · rw [settle_of_held (c := e.cell) hnull]
    refine ⟨settled, aside ++ [e], hs, ?_, ?_⟩
    · rw [Array.toList_push, haside, List.map_append]
      rfl
    · rw [← List.append_assoc]
      exact (List.perm_append_singleton e _).trans (hperm.cons e)

theorem Passed.foldl_settle {n : Nat} (hn : 0 < n) (es : List (Entry w V)) {r : Rehash w V}
    {seen : List (Entry w V)} (h : r.Passed n seen) (hp : Placeable (es ++ seen)) :
    ((es.map Entry.cell).foldl Rehash.settle r).Passed n (es.reverse ++ seen) := by
  induction es generalizing r seen with
  | nil => simpa using h
  | cons e es ih =>
    have hp' : Placeable (es ++ e :: seen) := hp.perm List.perm_middle.symm
    have hhead : Placeable (e :: seen) := (hp'.perm List.perm_append_comm).left
    simpa using ih (h.settle hn hhead) hp'

end Rehash

namespace Table

theorem Stores.foldl_place {t : Table w V} {n : Nat} {seen : List (Entry w V)}
    (h : t.Stores n seen) (es : List (Entry w V)) (hlt : (es ++ seen).length < n)
    (hp : Placeable (es ++ seen)) :
    ((es.map Entry.cell).foldl Table.place t).Stores n (es.reverse ++ seen) := by
  induction es generalizing t seen with
  | nil => simpa using h
  | cons e es ih =>
    have hp' : Placeable (es ++ e :: seen) := hp.perm List.perm_middle.symm
    rw [List.cons_append] at hp hlt
    simp only [List.length_cons, List.length_append] at hlt
    have habs : e.key ∉ seen.map Entry.key := by
      intro hmem
      exact hp.head_not_mem (by rw [List.map_append]; exact List.mem_append_right _ hmem)
    have hplaced := h.place (by omega) hp.head_nonnull habs
    simpa using ih hplaced (by simp only [List.length_append, List.length_cons]; omega) hp'

variable {t : Table w V} {n : Nat}

theorem Aligned.cells_eq (ha : t.Aligned) : t.cells = t.entries.map Entry.cell := by
  have hzip : t.keys.toList.zip t.values.toList =
      (List.range t.length).map fun i => (t.key i, t.value? i) := by
    have hsize := ha.size_eq
    apply List.ext_getElem
    · simp [length, hsize]
    · intro i hi _
      have hk : i < t.keys.size := by
        simp only [List.length_zip, Array.length_toList] at hi
        omega
      simp [key, value?, Array.getD_eq_getD_getElem?, hk, ha.lt_size hk]
  unfold cells
  rw [hzip, List.filter_map]
  refine ha.map_held fun i e he => ?_
  rw [key_of_slot? he, value?_of_slot? he, Entry.cell]

theorem firstPass_passed (ha : t.Aligned) (hn : 0 < n) (hp : Placeable t.entries) :
    (t.firstPass n).Passed n t.entries := by
  have hempty : (Table.empty n : Table w V).Stores n [] :=
    ⟨.empty n, length_empty n, .of_eq (entries_empty n)⟩
  have hstart : Rehash.Passed (⟨{ Table.empty n with count := t.count }, #[]⟩ : Rehash w V) n [] :=
    ⟨[], [], hempty.with_count t.count, rfl, .refl _⟩
  obtain ⟨settled, aside, hs, haside, hperm⟩ := hstart.foldl_settle hn t.entries (by simp [hp])
  rw [← ha.cells_eq] at hs haside
  exact ⟨settled, aside, hs, haside, hperm.trans (by simp)⟩

theorem rehash_eq (t : Table w V) (n : Nat) : t.rehash n =
    ((t.firstPass n).delayed.toList.foldl place (t.firstPass n).table,
      (t.firstPass n).delayed.size) := by
  rw [Array.foldl_toList]
  rfl

/-- A rehash into more slots than there are entries keeps the entries, whatever the old layout. -/
theorem rehash_stores (ha : t.Aligned) (hp : Placeable t.entries) (hlt : t.entries.length < n) :
    (t.rehash n).1.Stores n t.entries := by
  obtain ⟨settled, aside, hs, haside, hperm⟩ := firstPass_passed (n := n) ha (by omega) hp
  have hcomm := List.perm_append_comm.trans hperm
  have hplaced := hs.foldl_place aside (by rw [hcomm.length_eq]; exact hlt) (hp.perm hcomm.symm)
  rw [← haside] at hplaced
  rw [rehash_eq]
  exact ⟨hplaced.arranged, hplaced.length_eq,
    (hplaced.perm.trans ((List.reverse_perm _).append_right settled)).trans hcomm⟩

theorem count_settle (r : Rehash w V) (c : Cell w V) : (r.settle c).table.count = r.table.count := by
  by_cases h : r.table.key (home r.table.length c.1) = .null w
  · rw [Rehash.settle_of_vacant h]
    rfl
  · rw [Rehash.settle_of_held h]

theorem count_place (t : Table w V) (c : Cell w V) : (t.place c).count = t.count := by
  unfold place
  split <;> rfl

theorem rehash_count (t : Table w V) (n : Nat) : (t.rehash n).1.count = t.count := by
  have hfirst : (t.firstPass n).table.count = t.count :=
    List.foldlRecOn (motive := fun r => r.table.count = t.count) t.cells Rehash.settle rfl
      fun r h c _ => (count_settle r c).trans h
  rw [rehash_eq]
  exact List.foldlRecOn (motive := fun (u : Table w V) => u.count = t.count) _ place hfirst
    fun u h c _ => (count_place u c).trans h

/-- In the second pass no probe meets its key: each cell set aside finds a vacant slot. -/
theorem rehash_probe_vacant (ha : t.Aligned) (hp : Placeable t.entries) (hlt : t.entries.length < n)
    {before after : List (Cell w V)} {c : Cell w V}
    (hd : (t.firstPass n).delayed.toList = before ++ c :: after) :
    ∃ i, i < n ∧ (before.foldl place (t.firstPass n).table).probe c.1 = some (.vacant i) := by
  obtain ⟨settled, aside, hs, haside, hperm⟩ := firstPass_passed (n := n) ha (by omega) hp
  obtain ⟨first, rest, rfl, rfl, hrest⟩ := List.map_eq_append_iff.mp (haside.symm.trans hd)
  obtain ⟨e, last, rfl, rfl, rfl⟩ := List.map_eq_cons_iff.mp hrest
  rw [← List.append_assoc] at hperm
  have hfront : (e :: (settled ++ first) ++ last).Perm t.entries :=
    List.perm_middle.symm.trans hperm
  have hlen := hfront.length_eq
  have hfirst : Placeable (e :: (settled ++ first)) := (hp.perm hfront.symm).left
  have hback : (e :: (settled ++ first)).Perm (e :: (first ++ settled)) :=
    List.perm_append_comm.cons e
  simp only [List.length_append, List.length_cons] at hlen
  have hplaced := hs.foldl_place first
    (by simp only [List.length_append]; omega) (hfirst.perm hback).tail
  obtain ⟨i, hprobe, hend⟩ := hplaced.probe_fresh (e := e)
    (by simp only [List.length_append, List.length_reverse]; omega)
    (by simpa using (hfirst.perm hback).head_not_mem)
  exact ⟨i, hplaced.length_eq ▸ hend.lt_length, hprobe⟩

end Table

end LexBase
