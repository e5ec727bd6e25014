import LexBase.Proofs.Table.Removal
import Mathlib.Data.Nat.Find

/-!
# Which slots are held

Whether a slot is held can be told from the homes of the keys, without the layout. Go around the
table so that the slot comes last, and count the keys whose home lies at an offset or later. If the
slot is vacant, no key gets past it, so there are fewer such keys than places left. If it is held,
take the run of held slots that ends there: nothing comes in from before the run, so the homes of
its keys lie in the run, and there are as many of them as places. Hence tables of one length with
the same keys hold the same slots, whatever happened to them before, and a key can only stand
elsewhere within one run of held slots.
-/

namespace LexBase

set_option autoImplicit false

variable {w : Width} {V V' : Type}

/-- How many of the keys have their home at offset `q` of the tour from `start`, or later. -/
def lateHomes (length start q : Nat) (keys : List (CodeUnit w)) : Nat :=
  keys.countP fun key => q ≤ distance length start (home length key)

theorem lateHomes_perm {keys keys' : List (CodeUnit w)} (h : keys.Perm keys') (length start q : Nat) :
    lateHomes length start q keys = lateHomes length start q keys' :=
  h.countP_eq _

namespace Table

variable {t : Table w V} {t' : Table w V'} {start p q : Nat} {e : Entry w V}

theorem lateHomes_entries (hs : start < t.length) (hq : q ≤ t.length) :
    lateHomes t.length start q (t.entries.map Entry.key) =
      ((List.range q).filterMap (t.onward? start)).countP (fun e => q ≤ t.homeOffset start e) +
        (t.tour start q).countP fun e => q ≤ t.homeOffset start e := by
  rw [lateHomes, List.countP_map, ← (tour_zero_perm hs).countP_eq, tour_split hq,
    List.countP_append]
  rfl

/-- No key stands before its home on a tour that ends at a vacant slot. -/
theorem Unbroken.lateHomes_le (hu : t.Unbroken start) (hs : start < t.length) (hq : q ≤ t.length) :
    lateHomes t.length start q (t.entries.map Entry.key) ≤ (t.tour start q).length := by
  have hbefore : ((List.range q).filterMap (t.onward? start)).countP
      (fun e => q ≤ t.homeOffset start e) = 0 := by
    rw [List.countP_eq_zero]
    intro e he
    obtain ⟨p, hp, hat⟩ := List.mem_filterMap.mp he
    have hlt := List.mem_range.mp hp
    have hle := (hu p e (by omega) hat).1
    simp only [decide_eq_true_eq]
    omega
  rw [lateHomes_entries hs hq, hbefore, Nat.zero_add]
  exact List.countP_le_length

theorem Based.length_tour_lt (hb : t.Based start) (hq : q < t.length) :
    (t.tour start q).length + q < t.length := by
  have hn : t.length - q = (t.length - 1 - q) + 1 := by omega
  have hlast : q + 1 * (t.length - 1 - q) = t.length - 1 := by omega
  have hnone : [t.length - 1].filterMap (t.onward? start) = [] :=
    List.filterMap_cons_none hb.last_vacant
  rw [tour, hn, List.range'_concat, hlast, List.filterMap_append, hnone, List.append_nil]
  have hle := List.length_filterMap_le (t.onward? start) (List.range' q (t.length - 1 - q))
  rw [List.length_range'] at hle
  omega

/-- The slots from offset `q` on are held, by keys whose homes lie at `q` or later as well. -/
structure RunFrom (t : Table w V) (start q : Nat) : Prop where
  le_length : q ≤ t.length
  held : ∀ p, q ≤ p → p < t.length → (t.onward? start p).isSome
  home_ge : ∀ p e, q ≤ p → p < t.length → t.onward? start p = some e →
    q ≤ t.homeOffset start e

theorem RunFrom.length_tour (h : t.RunFrom start q) : (t.tour start q).length = t.length - q := by
  have hall : ∀ p ∈ List.range' q (t.length - q), (t.onward? start p).isSome = true := by
    intro p hp
    have hmem := List.mem_range'_1.mp hp
    have hle := h.le_length
    exact h.held p hmem.1 (by omega)
  rw [tour, List.length_filterMap_eq_countP, List.countP_eq_length.mpr hall, List.length_range']

theorem RunFrom.le_lateHomes (h : t.RunFrom start q) (hs : start < t.length) :
    t.length - q ≤ lateHomes t.length start q (t.entries.map Entry.key) := by
  have hall : ∀ e ∈ t.tour start q, decide (q ≤ t.homeOffset start e) = true := by
    intro e he
    obtain ⟨p, hp, hat⟩ := List.mem_filterMap.mp he
    have hmem := List.mem_range'_1.mp hp
    have hle := h.le_length
    exact decide_eq_true (h.home_ge p e hmem.1 (by omega) hat)
  rw [lateHomes_entries hs h.le_length, List.countP_eq_length.mpr hall, h.length_tour]
  exact Nat.le_add_left _ _

theorem exists_runFrom (hreach : ∀ i e, t.slot? i = some e → t.Reaches e.key i)
    (hvac : t.HasVacancy) (hs : start < t.length)
    (hlast : (t.onward? start (t.length - 1)).isSome) :
    ∃ q, q < t.length ∧ t.RunFrom start q := by
  obtain ⟨i, hi, hnone⟩ := hvac
  have hat : t.onward? start (distance t.length start i) = none := by
    rw [onward?, add_distance hs hi]
    exact hnone
  have hlt := distance_lt (a := start) (b := i) (by omega : 0 < t.length)
  let v := Nat.findGreatest (fun p => t.onward? start p = none) (t.length - 1)
  have hv : t.onward? start v = none :=
    Nat.findGreatest_spec (P := fun p => t.onward? start p = none) (by omega) hat
  have hvle : v ≤ t.length - 1 := Nat.findGreatest_le _
  have hvne : v ≠ t.length - 1 := by
    intro heq
    rw [heq] at hv
    simp [hv] at hlast
  refine ⟨v + 1, by omega, by omega, ?_, ?_⟩
  · intro p hvp hp
    rw [Option.isSome_iff_ne_none]
    exact Nat.findGreatest_is_greatest hvp (by omega)
  · intro p e hvp hp he
    by_contra hhome
    have hpath := (hreach _ e he).onward hs hp (by omega : t.homeOffset start e ≤ v) (by omega)
    simp [hv] at hpath

namespace Arranged

/-- A slot is vacant if on the tour that ends there the late homes are always fewer than the places
left: the layout does not enter. -/
theorem slot?_eq_none_iff_lateHomes (hv : t.Arranged) (hvac : t.HasVacancy) {i : Nat}
    (hi : i < t.length) :
    t.slot? i = none ↔ ∀ q, q < t.length →
      lateHomes t.length ((i + 1) % t.length) q (t.entries.map Entry.key) + q < t.length := by
  have hs : (i + 1) % t.length < t.length := Nat.mod_lt _ (by omega)
  constructor
  · intro hnone q hq
    have hb := based_past_vacant hi hnone
    have hle := (hb.unbroken hv.reached).lateHomes_le hs (Nat.le_of_lt hq)
    have hlt := hb.length_tour_lt hq
    omega
  · intro hfew
    by_contra hheld
    have hlast : (t.onward? ((i + 1) % t.length) (t.length - 1)).isSome := by
      have hback : i + (1 + (t.length - 1)) = i + t.length := by omega
      rw [onward?, add_offset, hback, Nat.add_mod_right, Nat.mod_eq_of_lt hi]
      exact Option.isSome_iff_ne_none.mpr hheld
    obtain ⟨q, hq, hrun⟩ := exists_runFrom hv.reached hvac hs hlast
    have hmany := hrun.le_lateHomes hs
    have hfew' := hfew q hq
    omega

/-- Tables of one length with the same keys hold the same slots. -/
theorem isSome_slot?_eq (hv : t.Arranged) (hvac : t.HasVacancy) (hv' : t'.Arranged)
    (hvac' : t'.HasVacancy) (hl : t'.length = t.length)
    (hkeys : (t'.entries.map Entry.key).Perm (t.entries.map Entry.key)) (i : Nat) :
    (t'.slot? i).isSome = (t.slot? i).isSome := by
  by_cases hi : i < t.length
  · have hiff : t'.slot? i = none ↔ t.slot? i = none := by
      rw [hv.slot?_eq_none_iff_lateHomes hvac hi,
        hv'.slot?_eq_none_iff_lateHomes hvac' (by omega), hl]
      simp only [lateHomes_perm hkeys]
    rw [Bool.eq_iff_iff, Option.isSome_iff_ne_none, Option.isSome_iff_ne_none]
    exact not_congr hiff
  · rw [slot?_eq_none_of_le (by omega), slot?_eq_none_of_le (by omega)]
    rfl

end Arranged

def HeldFrom (t : Table w V) (i j : Nat) : Prop :=
  ∀ d, d ≤ distance t.length i j → (t.onward? i d).isSome

/-- The two slots belong to one run of held slots. -/
def Joined (t : Table w V) (i j : Nat) : Prop := t.HeldFrom i j ∨ t.HeldFrom j i

theorem Reaches.heldFrom {key : CodeUnit w} {i : Nat} (hr : t.Reaches key i) (hi : i < t.length)
    (hheld : (t.slot? i).isSome) : t.HeldFrom (home t.length key) i := by
  intro d hd
  rcases Nat.lt_or_eq_of_le hd with hlt | rfl
  · exact hr d hlt
  · rwa [onward?, add_distance (home_lt (by omega)) hi]

theorem HeldFrom.later {h i j : Nat} (hf : t.HeldFrom h j) (hh : h < t.length) (hi : i < t.length)
    (hj : j < t.length) (hle : distance t.length h i ≤ distance t.length h j) :
    t.HeldFrom i j := by
  intro d hd
  have hdi := distance_lt (a := h) (b := i) (by omega : 0 < t.length)
  have hdj := distance_lt (a := h) (b := j) (by omega : 0 < t.length)
  have hgap : distance t.length i j = distance t.length h j - distance t.length h i := by
    have hoff := distance_offsets hh hdi hdj
    rwa [add_distance hh hi, add_distance hh hj, if_pos hle] at hoff
  have hstep := hf (distance t.length h i + d) (by omega)
  rwa [onward?, ← add_offset, add_distance hh hi] at hstep

theorem joined_of_heldFrom {h i j : Nat} (hh : h < t.length) (hi : i < t.length) (hj : j < t.length)
    (hfi : t.HeldFrom h i) (hfj : t.HeldFrom h j) : t.Joined i j := by
  rcases Nat.le_total (distance t.length h i) (distance t.length h j) with hle | hle
  · exact Or.inl (hfj.later hh hi hj hle)
  · exact Or.inr (hfi.later hh hj hi hle)

theorem HeldFrom.congr {i j : Nat} (hl : t'.length = t.length)
    (hheld : ∀ k, (t'.slot? k).isSome = (t.slot? k).isSome) (hf : t'.HeldFrom i j) :
    t.HeldFrom i j := by
  intro d hd
  have hstep := hf d (by rw [hl]; exact hd)
  rwa [onward?, hheld, hl] at hstep

/-- If two arranged tables hold the same slots, a key stands in the same run of both. -/
theorem Arranged.joined (hv : t.Arranged) (hv' : t'.Arranged) (hl : t'.length = t.length)
    (hheld : ∀ k, (t'.slot? k).isSome = (t.slot? k).isSome) {i j : Nat} {e : Entry w V}
    {e' : Entry w V'} (hi : t.slot? i = some e) (hj : t'.slot? j = some e')
    (hk : e'.key = e.key) : t.Joined i j := by
  have hil := lt_length_of_slot? hi
  have hjl := lt_length_of_slot? hj
  have hfi := (hv.reached i e hi).heldFrom hil (by rw [hi]; rfl)
  have hfj := ((hv'.reached j e' hj).heldFrom hjl (by rw [hj]; rfl)).congr hl hheld
  rw [hk, hl] at hfj
  exact joined_of_heldFrom (home_lt (by omega)) hil (by omega) hfi hfj

end Table

end LexBase
