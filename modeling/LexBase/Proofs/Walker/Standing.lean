import LexBase.Proofs.CodeMap.Contents
import LexBase.Proofs.Walker.Outcome

/-!
# What a removal takes out

A walker remembers the place of the entry it last produced, and a removal takes out whatever stands
in that place by then. So it takes out one key exactly if nothing else stands there, unless the call
is refused anyway.
-/

namespace LexBase

set_option autoImplicit false

variable {w : Width} {V : Type} [BEq V]

theorem Contents.present_release (s : Contents w V) (key k : CodeUnit w) :
    (s.release key).present k = if k = key then none else s.present k := by
  unfold present release
  by_cases hkey : key = .null w
  · by_cases hk : k = .null w
    · simp [hkey, hk, presentNull]
    · simp [hkey, hk]
  · by_cases hk : k = .null w
    · have hne : CodeUnit.null w ≠ key := fun h => hkey h.symm
      simp [hkey, hk, hne, presentNull]
    · simp [hkey, hk]

namespace CodeMap

variable {m m' : CodeMap w V} {u : CodeUnit w} {v : V}

/-- A key goes with this value, and every other key keeps its own. -/
structure Erases (m m' : CodeMap w V) (u : CodeUnit w) (v : V) : Prop where
  present : m.contains u = true
  stored : m.stored? u = some v
  absent : m'.contains u = false
  others : ∀ k, k ≠ u → m'.stored? k = m.stored? k ∧ m'.contains k = m.contains k

theorem Erases.unique {u' : CodeUnit w} {v' : V} (h : m.Erases m' u v) (h' : m.Erases m' u' v') :
    u' = u := by
  by_cases heq : u' = u
  · exact heq
  · have hkept := (h.others u' heq).2
    rw [h'.absent, h'.present] at hkept
    cases hkept

theorem Valid.erases_of_release (hv : m.Valid) (hc : m.contains u = true)
    (hs : m.stored? u = some v) (hr : m'.Represents (m.contents.release u)) :
    m.Erases m' u v where
  present := hc
  stored := hs
  absent := by
    rw [hr.contains_eq, Contents.present_release, if_pos rfl]
    rfl
  others := by
    intro k hk
    constructor
    · rw [hr.stored?_eq, hv.represents.stored?_eq, Contents.stored_release, if_neg hk]
    · rw [hr.contains_eq, hv.represents.contains_eq, Contents.present_release, if_neg hk]

theorem Valid.clearNull_erases (hv : m.Valid) (hn : m.presentNull = some v) :
    m.Erases { m with nullValue := none } (.null w) v := by
  have hnull : (CodeUnit.null w).isNull = true := (CodeUnit.isNull_iff _).mpr rfl
  apply hv.erases_of_release
  · rw [contains, if_pos hnull, hn]
    rfl
  · rw [stored?, if_pos hnull]
    exact (Option.filter_eq_some_iff.mp hn).1
  · exact hv.represents.release_null

theorem Valid.removeSlot_erases (hv : m.Valid) {i : Nat} {e : Entry w V} {event : TableEvent}
    (he : m.table.slot? i = some e) (hr : m.removeSlot i = (some (e.value, event), m')) :
    m.Erases m' e.key e.value := by
  obtain ⟨t, _, hr', hp, hvalid⟩ := hv.removeSlot_some he
  obtain ⟨_, rfl⟩ := Prod.mk.inj (hr'.symm.trans hr)
  have hmem : e ∈ m.table.entries := Table.mem_entries.mpr ⟨i, he⟩
  have hkey : e.key ≠ .null w := hv.table.nonnull e hmem
  apply hv.erases_of_release
  · exact (hv.contains_iff hkey).mpr (List.mem_map_of_mem hmem)
  · rw [hv.represents.stored?_eq, Contents.stored, if_neg hkey]
    exact (hv.represents.mem_iff e).mp hmem
  · exact hv.represents.release_slot hp hvalid

end CodeMap

namespace Walker

variable {c : Walker w} {m : CodeMap w V} {u : CodeUnit w} {v : V} {latest : Option (CodeUnit w)}

/-- The key whose entry now stands where the walker last produced one. -/
def standing (c : Walker w) (m : CodeMap w V) : Option (CodeUnit w) :=
  match c.current with
  | none => none
  | some .null => m.presentNull.map fun _ => .null w
  | some (.slot _ i) => (m.table.slot? i).map Entry.key

theorem ok_of_standing (hv : m.Valid) (hmatch : c.matchesMap m = true) (hs : c.standing m = some u) :
    ∃ v, (c.remove m).answer = .ok v := by
  have hr := removes hv.table.aligned c
  generalize c.remove m = r at hr ⊢
  unfold standing at hs
  cases hr with
  | differs hdiff =>
    rw [hmatch] at hdiff
    cases hdiff
  | unset _ hc =>
    rw [hc] at hs
    cases hs
  | vacant _ hc hslot =>
    simp only [hc, hslot] at hs
    cases hs
  | absent _ hc hn =>
    simp only [hc, hn] at hs
    cases hs
  | null _ _ _ => exact ⟨_, rfl⟩
  | entry _ _ _ _ => exact ⟨_, rfl⟩

theorem erases_of_ok (hv : m.Valid) (hok : (c.remove m).answer = .ok v) :
    c.matchesMap m = true ∧ ∃ u, c.standing m = some u ∧ m.Erases (c.remove m).map u v := by
  have hr := removes hv.table.aligned c
  generalize c.remove m = r at hr hok ⊢
  unfold standing
  cases hr with
  | differs _ => cases hok
  | unset _ _ => cases hok
  | vacant _ _ _ => cases hok
  | absent _ _ _ => cases hok
  | null hmatch hc hn =>
    obtain rfl := Except.ok.inj hok
    refine ⟨hmatch, .null w, ?_, hv.clearNull_erases hn⟩
    simp only [hc, hn, Option.map_some]
  | @entry o i e m' event hmatch hc he hrem =>
    obtain rfl := Except.ok.inj hok
    refine ⟨hmatch, e.key, ?_, hv.removeSlot_erases he hrem⟩
    simp only [hc, he, Option.map_some]

/-- A removal takes out this key, or it fails; without the key in the map it fails. -/
structure TakesOnly (c : Walker w) (m : CodeMap w V) (latest : Option (CodeUnit w)) : Prop where
  erases : ∀ v, (c.remove m).answer = .ok v →
    ∃ u, latest = some u ∧ m.Erases (c.remove m).map u v
  fails : ∀ u, latest = some u → m.contains u = false → ∃ err, (c.remove m).answer = .error err

theorem takesOnly_of_fails {err : WalkError} (h : (c.remove m).answer = .error err) :
    c.TakesOnly m latest where
  erases := by
    intro v hv
    rw [h] at hv
    cases hv
  fails _ _ _ := ⟨err, h⟩

theorem takesOnly_of_erases (h : (c.remove m).answer = .ok v)
    (he : m.Erases (c.remove m).map u v) : c.TakesOnly m (some u) where
  erases := by
    intro v' hv
    rw [h] at hv
    obtain rfl := Except.ok.inj hv
    exact ⟨u, rfl, he⟩
  fails := by
    intro u' hu habsent
    obtain rfl := Option.some.inj hu
    rw [he.present] at habsent
    cases habsent

/-- The removal is right if nothing else has come to stand in the place, and only then. -/
theorem takesOnly_iff (hv : m.Valid) :
    c.TakesOnly m latest ↔
      (c.matchesMap m = true → c.standing m = none ∨ c.standing m = latest) := by
  constructor
  · intro h hmatch
    cases hs : c.standing m with
    | none => exact Or.inl rfl
    | some u =>
      obtain ⟨v, hok⟩ := ok_of_standing hv hmatch hs
      obtain ⟨_, u', hs', herases⟩ := erases_of_ok hv hok
      obtain ⟨u'', hlatest, herases'⟩ := h.erases v hok
      apply Or.inr
      rw [hlatest, herases.unique herases', ← hs', hs]
  · intro h
    cases hanswer : (c.remove m).answer with
    | error err => exact takesOnly_of_fails hanswer
    | ok v =>
      obtain ⟨hmatch, u, hs, herases⟩ := erases_of_ok hv hanswer
      have hlatest : latest = some u := by
        rcases h hmatch with hnone | hsome
        · rw [hs] at hnone
          cases hnone
        · exact hsome.symm.trans hs
      subst hlatest
      exact takesOnly_of_erases hanswer herases

end Walker

end LexBase
