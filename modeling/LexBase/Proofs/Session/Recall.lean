import LexBase.Proofs.Session.Tally
import LexBase.Proofs.Walker.Standing

/-!
# The entry last produced

As long as nobody else has removed a non-null entry since the walker produced one, that entry is
where the walker remembers it, or the walker refuses its calls. Afterwards as many fresh keys may
have come as went, and one of them may stand in the place: the walker does not notice, and removes
that one.
-/

namespace LexBase

set_option autoImplicit false

variable {w : Width} {V : Type} [BEq V]

namespace Walker

variable {c : Walker w} {m m' : CodeMap w V} {t : Tally w}

/-- What the place a walker remembers has to do with the key it last produced. -/
structure Recalls (c : Walker w) (m : CodeMap w V) (t : Tally w) : Prop where
  valid : m.Valid
  null : c.current = some .null → t.latest = some (.null w)
  expected_le : ∀ o i, c.current = some (.slot o i) → t.stirred = 0 → c.expected ≤ m.size
  slot : ∀ o i, c.current = some (.slot o i) → t.stirred = 0 → m.size = c.expected →
    (m.table.slot? i).map Entry.key = t.latest

omit [BEq V] in
theorem recalls_of_none (hv : m.Valid) (hc : c.current = none) : c.Recalls m t where
  valid := hv
  null h := by
    rw [hc] at h
    cases h
  expected_le _ _ h := by
    rw [hc] at h
    cases h
  slot _ _ h := by
    rw [hc] at h
    cases h

omit [BEq V] in
theorem recalls_walker (hv : m.Valid) : m.walker.Recalls m t :=
  recalls_of_none hv rfl

namespace Recalls

variable (h : c.Recalls m t)
include h

theorem next : (c.next m).2.Recalls m (t.produced (c.next m).1) := by
  have hp := c.produces m
  generalize c.next m = r at hp ⊢
  cases hp with
  | differs _ => exact h
  | @entry o e hmatch he =>
    have hexp := (matchesMap_iff.mp hmatch).1
    refine ⟨h.valid, ?_, ?_, ?_⟩
    · intro hc
      cases hc
    · intro o' i _ _
      exact Nat.le_of_eq hexp.symm
    · intro o' i hc _ _
      obtain ⟨rfl, rfl⟩ := Position.slot.inj (Option.some.inj hc)
      rw [he]
      rfl
  | null _ _ =>
    refine ⟨h.valid, fun _ => rfl, ?_, ?_⟩
    · intro o i hc
      cases hc
    · intro o i hc
      cases hc
  | exhausted _ => exact recalls_of_none h.valid rfl

theorem remove : (c.remove m).walker.Recalls (c.remove m).map (t.taken m (c.remove m).map) := by
  have hv := h.valid.remove c
  have hr := Walker.removes h.valid.table.aligned c
  generalize c.remove m = r at hr hv ⊢
  cases hr with
  | differs _ => exact ⟨h.valid, h.null, h.expected_le, h.slot⟩
  | unset _ _ => exact recalls_of_none hv rfl
  | vacant _ _ _ => exact recalls_of_none hv rfl
  | absent _ _ _ => exact recalls_of_none hv rfl
  | null _ _ _ => exact recalls_of_none hv rfl
  | entry _ _ _ _ => exact recalls_of_none hv rfl

theorem other (hb : m.Becomes m') : c.Recalls m' (t.changed m m') := by
  have hv := hb.valid h.valid
  have hgain := h.valid.size_add_gain hv
  refine ⟨hv, h.null, ?_, ?_⟩
  · intro o i hc hz
    simp only [Tally.changed, Nat.add_eq_zero_iff] at hz
    have hle := h.expected_le o i hc hz.1
    omega
  · intro o i hc hz hsize
    simp only [Tally.changed, Nat.add_eq_zero_iff] at hz
    have hle := h.expected_le o i hc hz.1
    have hsame : m.SameKeys m' := CodeMap.sameKeys_iff_gain.mpr ⟨by omega, hz.2⟩
    have hsize' : m.size = c.expected := by omega
    rw [(hb.sameSlots h.valid hsame).key_eq i]
    exact h.slot o i hc hz.1 hsize'

theorem takesOnly (hz : t.stirred = 0) : c.TakesOnly m t.latest := by
  apply (takesOnly_iff h.valid).mpr
  intro hmatch
  have hsize := (matchesMap_iff.mp hmatch).1
  have hnull := h.null
  have hslot := h.slot
  unfold standing
  cases hc : c.current with
  | none => exact Or.inl rfl
  | some p =>
    cases p with
    | null =>
      cases m.presentNull with
      | none => exact Or.inl rfl
      | some v => exact Or.inr (hnull hc).symm
    | slot o i => exact Or.inr (hslot o i hc hz hsize)

end Recalls

end Walker

namespace Session

variable {s s' : Session w V} {i c : Nat} {m₀ : CodeMap w V} {t : Tally w}

/-- A removal takes out the entry last produced, or it fails, as long as nothing else stands in its
place: certainly until somebody else removes a non-null entry, and while the walker refuses its
calls. Whatever it takes out goes alone, and its value is the answer. -/
theorem fresh_walker_takesOnly_iff (h : s.Reachable) (hm : s.maps[i]? = some m₀)
    (hc : c = s.walkers.length) (hs : Since i c (s.perform i .walker).session {} s' t) :
    ∃ walker m, s'.Pair i c walker m ∧
      (s'.perform i (.remove c)).reply = .taken (walker.remove m).answer ∧
      (s'.perform i (.remove c)).session.maps[i]? = some (walker.remove m).map ∧
      (walker.TakesOnly m t.latest ↔
        (walker.matchesMap m = true →
          walker.standing m = none ∨ walker.standing m = t.latest)) ∧
      (t.stirred = 0 ∨ t.Refused → walker.TakesOnly m t.latest) ∧
      (∀ v, (walker.remove m).answer = .ok v →
        ∃ u, walker.standing m = some u ∧ m.Erases (walker.remove m).map u v) := by
  subst hc
  have hv := h.valid m₀ (List.mem_of_getElem? hm)
  obtain ⟨walker, m, hp, hcount, hrecall⟩ := hs.keeps
    (P := fun c m t => c.Counted m₀ m t ∧ c.Recalls m t)
    (fun h => ⟨h.1.next, h.2.next⟩) (fun h => ⟨h.1.remove, h.2.remove⟩)
    (fun h hb => ⟨h.1.other hb, h.2.other hb⟩) (pair_walker hm)
    ⟨Walker.counted_walker hv, Walker.recalls_walker hv⟩
  refine ⟨walker, m, hp, hp.remove_reply, hp.remove.map_eq, Walker.takesOnly_iff hcount.valid,
    ?_, ?_⟩
  · rintro (hz | hrefused)
    · exact hrecall.takesOnly hz
    · apply Walker.takesOnly_of_fails
      rw [walker.remove_of_differs (hcount.refused_iff.mp hrefused)]
  · exact fun v hok => (Walker.erases_of_ok hcount.valid hok).2

/-- A walker over a single key. -/
def oneKey : Session .byte Nat :=
  ((Session.addMap ⟨[], []⟩ (.empty 0)).session.perform 0 (.insert 7 70)).session

/-- The walker has produced the key. -/
def produced : Session .byte Nat :=
  ((oneKey.perform 0 .walker).session.perform 0 (.next 0)).session

def emptied : Session .byte Nat := (produced.perform 0 (.retain fun _ _ => false)).session

/-- Another key with the same home has taken the place of the key produced. -/
def swapped : Session .byte Nat := (emptied.perform 0 (.insert 11 110)).session

theorem oneKey_walker_takesOnly :
    ∃ t walker m, Since 0 0 (oneKey.perform 0 .walker).session {} produced t ∧
      produced.Pair 0 0 walker m ∧ t.latest = some 7 ∧ m.contains 7 = true ∧
      walker.TakesOnly m t.latest := by
  have hreach : oneKey.Reachable := .perform (.addMap .start (.empty 0)) _ _
  have hin : oneKey.maps[0]?.map (CodeMap.contains · 7) = some true := by decide +kernel
  obtain ⟨m₀, hm₀, hcontains⟩ := Option.map_eq_some_iff.mp hin
  have hs : Since 0 0 (oneKey.perform 0 .walker).session {} produced
      (({} : Tally .byte).produced (.ok (⟨7, 70⟩ : Entry .byte Nat))) := .next .refl rfl
  obtain ⟨walker, m, hp, _, _, _, htakes, _⟩ := fresh_walker_takesOnly_iff hreach hm₀ rfl hs
  have hm : produced.maps[0]? = some m₀ := hm₀
  obtain rfl := Option.some.inj (hm.symm.trans hp.map_eq)
  exact ⟨_, walker, m₀, hs, hp, rfl, hcontains, htakes (Or.inl rfl)⟩

/-- The walker last produced the key 7, which is gone; its removal takes out the key 11. -/
theorem swapped_takes_other :
    oneKey.Reachable ∧ ∃ t walker m, Since 0 0 (oneKey.perform 0 .walker).session {} swapped t ∧
      swapped.Pair 0 0 walker m ∧ t.latest = some 7 ∧ m.contains 7 = false ∧
      m.contains 11 = true ∧ (walker.remove m).map.contains 11 = false ∧
      (swapped.perform 0 (.remove 0)).reply = .taken (.ok 110) ∧
      ¬ walker.TakesOnly m t.latest := by
  refine ⟨.perform (.addMap .start (.empty 0)) _ _, ?_⟩
  have hemptied : (produced.maps[0]?.bind fun m => emptied.maps[0]?.map fun m' =>
      (m.size, m'.size)) = some (1, 0) := by
    decide +kernel
  have hswapped : (swapped.walkers[0]?.bind fun c => swapped.maps[0]?.map fun m =>
      (m.contains 7, m.contains 11, (c.remove m).map.contains 11)) =
        some (false, true, false) := by
    decide +kernel
  have hreply : (swapped.perform 0 (.remove 0)).reply = .taken (.ok 110) := rfl
  obtain ⟨m₀, hm₀, hrest⟩ := Option.bind_eq_some_iff.mp hemptied
  obtain ⟨m₁, hm₁, _⟩ := Option.map_eq_some_iff.mp hrest
  obtain ⟨walker, hwalker, hrest⟩ := Option.bind_eq_some_iff.mp hswapped
  obtain ⟨m₂, hm₂, hfacts⟩ := Option.map_eq_some_iff.mp hrest
  simp only [Prod.mk.injEq] at hfacts
  obtain ⟨hseven, heleven, hgone⟩ := hfacts
  have hnext : Since 0 0 (oneKey.perform 0 .walker).session {} produced
      (({} : Tally .byte).produced (.ok (⟨7, 70⟩ : Entry .byte Nat))) := .next .refl rfl
  have hretain := Since.other (j := 0) (k := .retain fun _ _ => false) hnext rfl hm₀ hm₁
  have hs := Since.other (j := 0) (k := .insert 11 110) hretain rfl hm₁ hm₂
  have hp : swapped.Pair 0 0 walker m₂ := ⟨hwalker, hm₂⟩
  refine ⟨_, walker, m₂, hs, hp, rfl, hseven, heleven, hgone, hreply, ?_⟩
  intro h
  obtain ⟨err, hfail⟩ := h.fails 7 rfl hseven
  rw [hp.remove_reply, hfail] at hreply
  cases hreply

end Session

end LexBase
