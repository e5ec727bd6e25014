import LexBase.Table.Basic
import Mathlib.Data.List.Nodup
import Mathlib.Data.List.Perm.Basic
import Mathlib.Data.List.Rotate

/-!
# Going around a ring

Slots are numbered around a ring of `n` places. `distance n a b` leads from `a` to `b`: adding it
to `a` gives `b`, and between two places named by their offsets from a common start it is the
difference of the offsets, once around the ring if the difference is negative.
-/

namespace LexBase

set_option autoImplicit false

variable {n : Nat}

theorem add_mod_cases {a b : Nat} (ha : a < n) (hb : b < n) :
    (a + b) % n = if a + b < n then a + b else a + b - n := by
  split
  · exact Nat.mod_eq_of_lt (by assumption)
  · rw [Nat.mod_eq_sub_mod (by omega)]
    exact Nat.mod_eq_of_lt (by omega)

theorem distance_cases {a b : Nat} (ha : a < n) (hb : b < n) :
    distance n a b = if a ≤ b then b - a else b + n - a := by
  unfold distance
  split
  · rw [Nat.mod_eq_sub_mod (by omega), Nat.mod_eq_of_lt (by omega)]
    omega
  · exact Nat.mod_eq_of_lt (by omega)

theorem distance_lt {a b : Nat} (hn : 0 < n) : distance n a b < n := Nat.mod_lt _ hn

theorem distance_self {a : Nat} (ha : a < n) : distance n a a = 0 := by
  rw [distance_cases ha ha, if_pos (Nat.le_refl a), Nat.sub_self]

theorem add_distance {a b : Nat} (ha : a < n) (hb : b < n) : (a + distance n a b) % n = b := by
  have hd := distance_lt (a := a) (b := b) (by omega : 0 < n)
  rw [add_mod_cases ha hd, distance_cases ha hb]
  split <;> split <;> omega

theorem distance_add {a j : Nat} (ha : a < n) (hj : j < n) : distance n a ((a + j) % n) = j := by
  rw [distance_cases ha (Nat.mod_lt _ (by omega)), add_mod_cases ha hj]
  split <;> split <;> omega

theorem offset_inj {a i j : Nat} (ha : a < n) (hi : i < n) (hj : j < n) :
    (a + i) % n = (a + j) % n ↔ i = j := by
  constructor
  · intro h
    rw [← distance_add ha hi, h, distance_add ha hj]
  · rintro rfl
    rfl

theorem add_offset (a i j : Nat) : ((a + i) % n + j) % n = (a + (i + j)) % n := by
  rw [Nat.mod_add_mod, Nat.add_assoc]

/-- The places by their offsets from a start are the places, begun elsewhere. -/
theorem range_map_offset_eq_rotate (n a : Nat) :
    ((List.range n).map fun p => (a + p) % n) = (List.range n).rotate a := by
  apply List.ext_getElem
  · rw [List.length_map, List.length_rotate]
  · intro p _ _
    rw [List.getElem_map, List.getElem_rotate, List.getElem_range, List.getElem_range,
      List.length_range, Nat.add_comm]

theorem distance_offsets {a i j : Nat} (ha : a < n) (hi : i < n) (hj : j < n) :
    distance n ((a + i) % n) ((a + j) % n) = if i ≤ j then j - i else j + n - i := by
  rw [distance_cases (Nat.mod_lt _ (by omega)) (Nat.mod_lt _ (by omega)), add_mod_cases ha hi,
    add_mod_cases ha hj]
  split <;> split <;> split <;> split <;> omega

theorem range_map_offset_perm {a : Nat} (ha : a < n) :
    ((List.range n).map fun p => (a + p) % n).Perm (List.range n) := by
  have hnd : ((List.range n).map fun p => (a + p) % n).Nodup := by
    refine List.Nodup.map_on ?_ List.nodup_range
    intro i hi j hj h
    exact (offset_inj ha (List.mem_range.mp hi) (List.mem_range.mp hj)).mp h
  apply (List.perm_ext_iff_of_nodup hnd List.nodup_range).mpr
  intro i
  simp only [List.mem_map, List.mem_range]
  constructor
  · rintro ⟨p, _, rfl⟩
    exact Nat.mod_lt _ (by omega)
  · intro hi
    exact ⟨distance n a i, distance_lt (by omega), add_distance ha hi⟩

end LexBase
