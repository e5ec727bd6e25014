import LexBase.Proofs.Table.Occupancy
import Mathlib.Data.Finset.Card
import Mathlib.Data.Finset.Image

/-!
# The two passes of a rehash

The first pass writes to home slots only, so it holds one entry for each home slot of the keys it
has seen, and that entry is at its home. What it sets aside is the rest: the number depends on the
keys and the new length alone. The second pass never moves an entry. As an arranged table, the result
holds the same slots as any table of that length that the same keys are placed in one by one.
-/

namespace LexBase

set_option autoImplicit false

variable {w : Width} {V : Type}

def homes (length : Nat) (keys : Finset (CodeUnit w)) : Finset Nat := keys.image (home length)

def keySet (es : List (Entry w V)) : Finset (CodeUnit w) := (es.map Entry.key).toFinset

@[simp] theorem keySet_cons (e : Entry w V) (es : List (Entry w V)) :
    keySet (e :: es) = insert e.key (keySet es) := by
  simp [keySet]

theorem homes_insert (n : Nat) (key : CodeUnit w) (keys : Finset (CodeUnit w)) :
    homes n (insert key keys) = insert (home n key) (homes n keys) :=
  Finset.image_insert (home n) key keys

theorem home_mem_homes (n : Nat) {e : Entry w V} {es : List (Entry w V)} (h : e ∈ es) :
    home n e.key ∈ homes n (keySet es) :=
  Finset.mem_image_of_mem _ (List.mem_toFinset.mpr (List.mem_map_of_mem h))

theorem keySet_perm {es es' : List (Entry w V)} (h : es.Perm es') : keySet es = keySet es' :=
  List.toFinset_eq_of_perm _ _ (h.map Entry.key)

namespace Rehash

/-- The first pass after the entries in `seen`, slot by slot. -/
structure Homed (r : Rehash w V) (n : Nat) (seen : List (Entry w V)) : Prop where
  aligned : r.table.Aligned
  length_eq : r.table.length = n
  at_home : ∀ i e, r.table.slot? i = some e → e ∈ seen ∧ home n e.key = i
  held : ∀ e ∈ seen, (r.table.slot? (home n e.key)).isSome
  delayed_add : r.delayed.size + (homes n (keySet seen)).card = seen.length

variable {r : Rehash w V} {n : Nat} {seen : List (Entry w V)}

theorem homed_start (n count : Nat) :
    Homed (⟨{ Table.empty n with count := count }, #[]⟩ : Rehash w V) n [] where
  aligned := ((Table.Arranged.empty n).with_count count).aligned
  length_eq := Table.length_empty (V := V) n
  at_home i e he := by
    change (Table.empty n : Table w V).slot? i = some e at he
    rw [Table.slot?_empty] at he
    cases he
  held e he := absurd he List.not_mem_nil
  delayed_add := rfl

theorem Homed.settle (h : r.Homed n seen) (hn : 0 < n) {e : Entry w V} (hk : e.key ≠ .null w) :
    (r.settle e.cell).Homed n (e :: seen) := by
  have hlen := h.length_eq
  have hh : home n e.key < r.table.length := by
    rw [hlen]
    exact Table.home_lt hn
  have hcount := h.delayed_add
  by_cases hnull : r.table.key (home n e.key) = .null w
  · have hnew : home n e.key ∉ homes n (keySet seen) := by
      intro hmem
      obtain ⟨key, hkey, hhome⟩ := Finset.mem_image.mp hmem
      obtain ⟨e', he', rfl⟩ := List.mem_map.mp (List.mem_toFinset.mp hkey)
      have hheld := h.held e' he'
      rw [hhome, Table.slot?_of_null hnull] at hheld
      cases hheld
    have hstep : r.settle e.cell = ⟨r.table.fill (home n e.key) e.key (some e.value), r.delayed⟩ := by
      rw [← hlen] at hnull ⊢
      exact settle_of_vacant hnull
    rw [hstep]
    refine ⟨h.aligned.fill_some _ hk _, (Table.length_fill _ _ _ _).trans hlen, ?_, ?_, ?_⟩
    · intro i e' he'
      rw [Table.slot?_fill h.aligned hh hk] at he'
      split at he'
      · next hi =>
        obtain rfl := Option.some.inj he'
        exact ⟨List.mem_cons_self, hi⟩
      · obtain ⟨hmem, hhome⟩ := h.at_home i e' he'
        exact ⟨List.mem_cons_of_mem e hmem, hhome⟩
    · intro e' he'
      rcases List.mem_cons.mp he' with rfl | hold
      · rw [Table.slot?_fill h.aligned hh hk, if_pos rfl]
        rfl
      · exact Table.isSome_slot?_fill h.aligned hh hk _ _ (h.held e' hold)
    · rw [keySet_cons, homes_insert, Finset.card_insert_of_notMem hnew, List.length_cons]
      simp only
      omega
  · obtain ⟨e₀, hslot⟩ := Option.ne_none_iff_exists'.mp fun hs =>
      hnull (h.aligned.slot?_eq_none_iff.mp hs)
    obtain ⟨hmem, hhome⟩ := h.at_home _ e₀ hslot
    have hknown : home n e.key ∈ homes n (keySet seen) := hhome ▸ home_mem_homes n hmem
    have hstep : r.settle e.cell = ⟨r.table, r.delayed.push e.cell⟩ := by
      rw [← hlen] at hnull
      exact settle_of_held hnull
    rw [hstep]
    refine ⟨h.aligned, hlen, ?_, ?_, ?_⟩
    · intro i e' he'
      obtain ⟨hold, hat⟩ := h.at_home i e' he'
      exact ⟨List.mem_cons_of_mem e hold, hat⟩
    · intro e' he'
      rcases List.mem_cons.mp he' with rfl | hold
      · rw [hslot]
        rfl
      · exact h.held e' hold
    · rw [keySet_cons, homes_insert, Finset.insert_eq_of_mem hknown, List.length_cons]
      simp only [Array.size_push]
      omega

theorem Homed.foldl_settle (h : r.Homed n seen) (hn : 0 < n) (es : List (Entry w V))
    (hk : ∀ e ∈ es, e.key ≠ .null w) :
    ((es.map Entry.cell).foldl Rehash.settle r).Homed n (es.reverse ++ seen) := by
  induction es generalizing r seen with
  | nil => exact h
  | cons e es ih =>
    have hstep := h.settle hn (hk e List.mem_cons_self)
    simpa using ih hstep fun f hf => hk f (List.mem_cons_of_mem e hf)

end Rehash

namespace Table

variable {t : Table w V} {n : Nat}

theorem firstPass_homed (ha : t.Aligned) (hn : 0 < n) :
    (t.firstPass n).Homed n t.entries.reverse := by
  have hpass := (Rehash.homed_start n t.count).foldl_settle hn t.entries fun _ => nonnull
  rw [← ha.cells_eq, List.append_nil] at hpass
  exact hpass

theorem slot?_place {i : Nat} {e : Entry w V} (h : t.slot? i = some e) (c : Cell w V) :
    (t.place c).slot? i = some e := by
  unfold place
  split
  · next k hp =>
    have hne : k ≠ i := by
      rintro rfl
      rw [slot?_of_null (key_of_probe_vacant hp)] at h
      cases h
    rw [slot?_fill_of_ne hne, h]
  · exact h

theorem slot?_foldl_place {i : Nat} {e : Entry w V} (h : t.slot? i = some e)
    (cs : List (Cell w V)) : (cs.foldl place t).slot? i = some e := by
  induction cs generalizing t with
  | nil => exact h
  | cons c cs ih => exact ih (slot?_place h c)

/-- A slot that is the home of some key is held by an entry whose home it is. -/
theorem rehash_home_held (ha : t.Aligned) (hn : 0 < n) {e : Entry w V} (he : e ∈ t.entries) :
    ∃ e', (t.rehash n).1.slot? (home n e.key) = some e' ∧ home n e'.key = home n e.key := by
  have hpass := firstPass_homed ha hn
  obtain ⟨e', he'⟩ := Option.isSome_iff_exists.mp (hpass.held e (List.mem_reverse.mpr he))
  refine ⟨e', ?_, (hpass.at_home _ e' he').2⟩
  rw [rehash_eq]
  exact slot?_foldl_place he' _

theorem rehash_delayed_add (ha : t.Aligned) (hn : 0 < n) :
    (t.rehash n).2 + (homes n (keySet t.entries)).card = t.entries.length := by
  have hcount := (firstPass_homed ha hn).delayed_add
  rwa [keySet_perm (List.reverse_perm t.entries), List.length_reverse] at hcount

/-- The entries placed one after the other in an empty table. -/
def placed (n : Nat) (es : List (Entry w V)) : Table w V := (es.map Entry.cell).foldl place (.empty n)

theorem placed_stores {es : List (Entry w V)} (hp : Placeable es) (hlt : es.length < n) :
    (placed n es).Stores n es := by
  have hstart : (Table.empty n : Table w V).Stores n [] :=
    ⟨.empty n, length_empty n, .of_eq (entries_empty n)⟩
  have hs := hstart.foldl_place es (by simpa using hlt) (by simpa using hp)
  exact ⟨hs.arranged, hs.length_eq, by simpa [placed] using hs.perm.trans (by simp)⟩

end Table

end LexBase
