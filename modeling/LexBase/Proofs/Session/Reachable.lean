import LexBase.Proofs.CodeMap.Sound
import LexBase.Proofs.Session.Effect

/-!
# Reachable sessions

A session is reached from the empty one by commands on any of its maps. New maps come from the
constructors; a walker may also come from elsewhere, in any state, since a walker knows nothing of
the values of the maps it is used with. Every map of a reachable session is valid.
-/

namespace LexBase

set_option autoImplicit false

variable {w : Width} {V : Type} [BEq V]

namespace Session

def after (s : Session w V) (ks : List (Nat × Command w V)) : Session w V :=
  ks.foldl (fun s k => (s.perform k.1 k.2).session) s

inductive Reachable : Session w V → Prop where
  | start : Reachable ⟨[], []⟩
  | addMap {s : Session w V} {m : CodeMap w V} :
      Reachable s → m.Constructed → Reachable (s.addMap m).session
  | addWalker {s : Session w V} : Reachable s → (c : Walker w) →
      Reachable (s.addWalker (some c)).session
  | perform {s : Session w V} : Reachable s → (i : Nat) → (k : Command w V) →
      Reachable (s.perform i k).session

variable {s : Session w V}

theorem Reachable.after (h : s.Reachable) (ks : List (Nat × Command w V)) :
    (s.after ks).Reachable := by
  induction ks generalizing s with
  | nil => exact h
  | cons k ks ih => exact ih (h.perform k.1 k.2)

theorem Follows.valid {s' : Session w V} {i : Nat} (hf : s.Follows s' i)
    (h : ∀ m ∈ s.maps, m.Valid) :
    ∀ m ∈ s'.maps, m.Valid := by
  intro m' hm'
  obtain ⟨j, hj⟩ := List.mem_iff_getElem?.mp hm'
  obtain ⟨k, m, hm, hb⟩ := hf.new j m' hj
  exact hb.valid (h m (List.mem_of_getElem? hm))

theorem Reachable.valid (h : s.Reachable) : ∀ m ∈ s.maps, m.Valid := by
  induction h with
  | start =>
    intro m hm
    cases hm
  | @addMap s m _ hm ih =>
    intro m' hm'
    rcases List.mem_append.mp hm' with hold | hnew
    · exact ih m' hold
    · obtain rfl := List.mem_singleton.mp hnew
      exact hm.valid
  | addWalker _ c ih => exact ih
  | perform _ i k ih => exact (perform_follows _ i k).valid ih

/-- The layout invariant, and that nothing fails, after every run of commands. -/
theorem reachable_maps_sound (h : s.Reachable) : ∀ m ∈ s.maps, m.Sound ∧ m.Safe := by
  intro m hm
  have hv := h.valid m hm
  exact ⟨hv.sound, hv.safe⟩

/-- Two keys, the null key and a walker that is stale when it is asked to remove. -/
def sample : Session .byte Nat :=
  (Session.addMap ⟨[], []⟩ (.empty 0)).session.after
    [(0, .insert 7 70), (0, .insert 0 5), (0, .walker), (0, .next 0), (0, .insert 9 90),
      (0, .remove 0)]

theorem sample_maps_sound :
    ∃ m, sample.maps[0]? = some m ∧ m.size = 2 ∧ m.Sound ∧ m.Safe := by
  have hreach : sample.Reachable := .after (.addMap .start (.empty 0)) _
  have hsize : sample.maps[0]?.map CodeMap.size = some 2 := by decide +kernel
  obtain ⟨m, hm, hn⟩ := Option.map_eq_some_iff.mp hsize
  exact ⟨m, hm, hn, reachable_maps_sound hreach m (List.mem_of_getElem? hm)⟩

end Session

end LexBase
