import LexBase.Proofs.CodeMap.Growth
import LexBase.Proofs.CodeMap.Layout
import LexBase.Proofs.Session.Reachable

/-!
# What a history leaves behind

Of the history of a map little shows in its table. The length is the one for the largest size there
has been, the held slots follow from the length and the keys, and a growth is told from the keys
alone. The history of a map goes back through the maps it was cloned from.
-/

namespace LexBase

set_option autoImplicit false

variable {w : Width} {V V' : Type} [BEq V] [BEq V']

def Command.inserted : Command w V → Finset (CodeUnit w)
  | .insert key _ => if key.isNull then ∅ else {key}
  | _ => ∅

def Command.Exceeds (k : Command w V) (m : CodeMap w V) : Prop :=
  ∃ key value, k = .insert key value ∧ m.Exceeds key

/-- What is kept of the history of a map: its largest size, and the non-null keys ever inserted. -/
structure Past (w : Width) where
  peak : Nat
  keys : Finset (CodeUnit w)

namespace CodeMap

structure Recalls (m : CodeMap w V) (requested : Nat) (lf : LoadFactor) (past : Past w) : Prop where
  fitted : m.Fitted lf (max requested past.peak)
  known : ∀ u, u ≠ .null w → m.contains u = true → u ∈ past.keys
  peak_le : past.peak ≤ past.keys.card

variable {m m' : CodeMap w V} {requested : Nat} {lf : LoadFactor} {past : Past w}

theorem Built.recalls (h : m.Built requested lf) : m.Recalls requested lf ⟨0, ∅⟩ := by
  refine ⟨by simpa using h.fitted, ?_, Nat.le_refl _⟩
  intro u hu hc
  have hpos : 0 < m.size := by
    rw [h.fitted.valid.contains_iff hu] at hc
    obtain ⟨e, he, _⟩ := List.mem_map.mp hc
    obtain ⟨i, hi⟩ := Table.mem_entries.mp he
    exact h.fitted.valid.size_pos hi
  rw [h.size_eq] at hpos
  exact absurd hpos (Nat.lt_irrefl 0)

theorem Recalls.becomes (h : m.Recalls requested lf past) (hb : m.Becomes m')
    {added : Finset (CodeUnit w)}
    (hknown : ∀ u, u ≠ .null w → m'.contains u = true → m.contains u = true ∨ u ∈ added) :
    m'.Recalls requested lf ⟨max past.peak m'.size, past.keys ∪ added⟩ := by
  have hfit := h.fitted.becomes hb
  rw [Nat.max_assoc] at hfit
  have hknown' : ∀ u, u ≠ .null w → m'.contains u = true → u ∈ past.keys ∪ added := by
    intro u hu hc
    rcases hknown u hu hc with hold | hnew
    · exact Finset.mem_union_left _ (h.known u hu hold)
    · exact Finset.mem_union_right _ hnew
  refine ⟨hfit, hknown', Nat.max_le.mpr ⟨?_, hfit.valid.size_le_card hknown'⟩⟩
  exact Nat.le_trans h.peak_le (Finset.card_le_card Finset.subset_union_left)

/-- As many keys as were asked for fit into the table as it was built. -/
theorem Recalls.capacity_of_few (h : m.Recalls requested lf past)
    (hfew : past.keys.card ≤ requested) :
    m.capacity = (Sizing.forTarget requested lf w.domain).length := by
  rw [h.fitted.capacity_eq, Nat.max_eq_left (Nat.le_trans h.peak_le hfew)]

end CodeMap

namespace Session

def sizeAt (s : Session w V) (i : Nat) : Nat := ((s.maps[i]?).map CodeMap.size).getD 0

/-- The history of the map at an index since it, or the map it goes back to, was built. -/
inductive Lineage (requested : Nat) (lf : LoadFactor) : Session w V → Nat → Past w → Prop where
  | built {s : Session w V} {m : CodeMap w V} : s.Reachable → m.Built requested lf →
      Lineage requested lf (s.addMap m).session s.maps.length ⟨0, ∅⟩
  | perform {s : Session w V} {i : Nat} {past : Past w} : Lineage requested lf s i past →
      (k : Command w V) → Lineage requested lf (s.perform i k).session i
        ⟨max past.peak ((s.perform i k).session.sizeAt i), past.keys ∪ k.inserted⟩
  | elsewhere {s : Session w V} {i j : Nat} {past : Past w} : Lineage requested lf s i past →
      j ≠ i → (k : Command w V) → Lineage requested lf (s.perform j k).session i past
  | clone {s : Session w V} {i : Nat} {past : Past w} : Lineage requested lf s i past →
      Lineage requested lf (s.perform i .clone).session s.maps.length past
  | addMap {s : Session w V} {i : Nat} {past : Past w} {m : CodeMap w V} :
      Lineage requested lf s i past → m.Constructed →
      Lineage requested lf (s.addMap m).session i past
  | addWalker {s : Session w V} {i : Nat} {past : Past w} : Lineage requested lf s i past →
      (c : Walker w) → Lineage requested lf (s.addWalker (some c)).session i past

variable {s : Session w V} {s' : Session w V'} {i j : Nat} {requested : Nat} {lf : LoadFactor}
  {past : Past w} {m : CodeMap w V} {m' : CodeMap w V'}

omit [BEq V] in
theorem sizeAt_eq (hm : s.maps[i]? = some m) : s.sizeAt i = m.size := by
  rw [sizeAt, hm]
  rfl

theorem perform_becomes (hm : s.maps[i]? = some m) (hv : m.Valid) (k : Command w V) :
    ∃ m', (s.perform i k).session.maps[i]? = some m' ∧ m.Becomes m' ∧
      ∀ u, u ≠ .null w → m'.contains u = true → m.contains u = true ∨ u ∈ k.inserted := by
  obtain ⟨m', hm', ha⟩ := perform_alters hm k
  refine ⟨m', hm', ha.becomes, ?_⟩
  intro u hu hc
  cases ha with
  | @insert key value heq =>
    subst heq
    rcases (hv.contains_insert key value hu).mp hc with rfl | hold
    · have hkey : ¬ u.isNull = true := fun hn => hu ((CodeUnit.isNull_iff u).mp hn)
      right
      simp [Command.inserted, hkey]
    · exact Or.inl hold
  | sheds _ hs => exact Or.inl (CodeMap.gain_eq_zero_iff.mp (hs.gain hv) u hu hc)

theorem Lineage.recalls (h : Lineage requested lf s i past) :
    ∃ m, s.maps[i]? = some m ∧ m.Recalls requested lf past := by
  induction h with
  | built _ hb => exact ⟨_, List.getElem?_concat_length, hb.recalls⟩
  | perform _ k ih =>
    obtain ⟨m, hm, hr⟩ := ih
    obtain ⟨m', hm', hb, hknown⟩ := perform_becomes hm hr.fitted.valid k
    rw [sizeAt_eq hm']
    exact ⟨m', hm', hr.becomes hb hknown⟩
  | @elsewhere s i j past _ hne k ih =>
    obtain ⟨m, hm, hr⟩ := ih
    obtain ⟨m', hm', _, hsame⟩ := (perform_follows s j k).old i m hm
    exact ⟨m', hm', hsame hne ▸ hr⟩
  | clone _ ih =>
    obtain ⟨m, hm, hr⟩ := ih
    refine ⟨m, ?_, hr⟩
    simp only [Session.perform, hm]
    exact List.getElem?_concat_length
  | addMap _ _ ih =>
    obtain ⟨m, hm, hr⟩ := ih
    have hi := (List.getElem?_eq_some_iff.mp hm).1
    exact ⟨m, (List.getElem?_append_left hi).trans hm, hr⟩
  | addWalker _ c ih =>
    obtain ⟨m, hm, hr⟩ := ih
    exact ⟨m, by rw [maps_addWalker]; exact hm, hr⟩

theorem Lineage.reachable (h : Lineage requested lf s i past) : s.Reachable := by
  induction h with
  | built hs hb => exact hs.addMap hb.constructed
  | perform _ k ih => exact ih.perform _ k
  | elsewhere _ _ k ih => exact ih.perform _ k
  | clone _ ih => exact ih.perform _ .clone
  | addMap _ hm ih => exact ih.addMap hm
  | addWalker _ c ih => exact ih.addWalker c

/-- Every map of a reachable session has a history. -/
theorem Reachable.exists_lineage (h : s.Reachable) (hm : s.maps[i]? = some m) :
    ∃ requested lf past, Lineage requested lf s i past := by
  induction h generalizing i m with
  | start => cases hm
  | @addMap s n hs hn ih =>
    cases hold : s.maps[i]? with
    | some m' =>
      obtain ⟨requested, lf, past, hl⟩ := ih hold
      exact ⟨requested, lf, past, hl.addMap hn⟩
    | none =>
      have hlt := (List.getElem?_eq_some_iff.mp hm).1
      rw [Session.addMap, List.length_append, List.length_singleton] at hlt
      have hle := List.getElem?_eq_none_iff.mp hold
      obtain rfl : i = s.maps.length := by omega
      obtain ⟨requested, lf, hb⟩ := hn.exists_built
      exact ⟨requested, lf, _, .built hs hb⟩
  | addWalker _ c ih =>
    obtain ⟨requested, lf, past, hl⟩ := ih hm
    exact ⟨requested, lf, past, hl.addWalker c⟩
  | @perform s _ j k ih =>
    cases hold : s.maps[i]? with
    | some m' =>
      obtain ⟨requested, lf, past, hl⟩ := ih hold
      by_cases hj : j = i
      · subst hj
        exact ⟨requested, lf, _, hl.perform k⟩
      · exact ⟨requested, lf, past, hl.elsewhere hj k⟩
    | none =>
      obtain ⟨rfl, rfl, hj⟩ := clone_of_new hold hm
      obtain ⟨requested, lf, past, hl⟩ := ih (List.getElem?_eq_getElem hj)
      exact ⟨requested, lf, past, hl.clone⟩

theorem perform_capacity (hm : s.maps[i]? = some m) {target : Nat} (h : m.Fitted lf target)
    (k : Command w V) : ∃ m', (s.perform i k).session.maps[i]? = some m' ∧
      (k.Exceeds m ∧ m'.capacity = 2 * m.capacity ∨
        ¬ k.Exceeds m ∧ m'.capacity = m.capacity) := by
  obtain ⟨m', hm', ha⟩ := perform_alters hm k
  refine ⟨m', hm', ?_⟩
  cases ha with
  | @insert key value heq =>
    subst heq
    by_cases hx : m.Exceeds key
    · exact Or.inl ⟨⟨key, value, rfl, hx⟩, (h.insert_exceeds hx value).2⟩
    · right
      constructor
      · rintro ⟨key', value', heq, hx'⟩
        obtain ⟨rfl, _⟩ := Command.insert.inj heq
        exact hx hx'
      · have hv := h.valid.insert key value
        unfold CodeMap.capacity
        rw [hv.length_eq, h.valid.length_eq, (h.valid.insert_stays hx value).2]
  | sheds hno hs =>
    refine Or.inr ⟨?_, hs.capacity h.valid⟩
    rintro ⟨key, value, heq, _⟩
    exact hno key value heq

theorem Lineage.not_exceeds (h : Lineage requested lf s i past) (hm : s.maps[i]? = some m)
    {k : Command w V} (hfew : (past.keys ∪ k.inserted).card ≤ requested) : ¬ k.Exceeds m := by
  intro hx
  obtain ⟨m₀, hm₀, hr⟩ := h.recalls
  obtain rfl := Option.some.inj (hm.symm.trans hm₀)
  obtain ⟨m', hm', hcases⟩ := perform_capacity hm hr.fitted k
  obtain ⟨m'', hm'', hr'⟩ := (h.perform k).recalls
  obtain rfl := Option.some.inj (hm'.symm.trans hm'')
  have hsub : past.keys ⊆ past.keys ∪ k.inserted := Finset.subset_union_left
  have hless := Finset.card_le_card hsub
  have hbefore := hr.capacity_of_few (by omega)
  have hafter := hr'.capacity_of_few hfew
  have hpos := (Sizing.forTarget requested lf w.domain).length_pos
  rcases hcases with ⟨_, hdouble⟩ | ⟨hno, _⟩
  · omega
  · exact hno hx

/-- The capacity over a whole history. -/
theorem lineage_capacity (h : Lineage requested lf s i past) :
    ∃ m, s.maps[i]? = some m ∧
      m.capacity = (Sizing.forTarget (max requested past.peak) lf w.domain).length ∧
      (past.keys.card ≤ min requested w.domain →
        m.capacity = (Sizing.forTarget requested lf w.domain).length) ∧
      (∀ k : Command w V, (past.keys ∪ k.inserted).card ≤ min requested w.domain →
        ¬ k.Exceeds m) ∧
      m.capacity ≤ (Sizing.forTarget w.domain lf w.domain).length ∧
      ∀ (j : Nat) (k : Command w V), ∃ m', (s.perform j k).session.maps[i]? = some m' ∧
        (j = i ∧ k.Exceeds m ∧ m'.capacity = 2 * m.capacity ∨
          ¬ (j = i ∧ k.Exceeds m) ∧ m'.capacity = m.capacity) := by
  obtain ⟨m, hm, hr⟩ := h.recalls
  have hcap := hr.fitted.capacity_eq
  refine ⟨m, hm, hcap, ?_, ?_, ?_, ?_⟩
  · exact fun hfew => hr.capacity_of_few (Nat.le_trans hfew (Nat.min_le_left _ _))
  · exact fun k hfew => h.not_exceeds hm (Nat.le_trans hfew (Nat.min_le_left _ _))
  · rw [hcap]
    apply Sizing.forTarget_length_mono hr.fitted.admissible
    unfold Sizing.clamp
    omega
  · intro j k
    by_cases hj : j = i
    · subst hj
      obtain ⟨m', hm', hcases⟩ := perform_capacity hm hr.fitted k
      refine ⟨m', hm', ?_⟩
      rcases hcases with ⟨hx, hdouble⟩ | ⟨hx, hsame⟩
      · exact Or.inl ⟨rfl, hx, hdouble⟩
      · exact Or.inr ⟨fun hboth => hx hboth.2, hsame⟩
    · obtain ⟨m', hm', _, hsame⟩ := (perform_follows s j k).old i m hm
      exact ⟨m', hm', Or.inr ⟨fun hboth => hj hboth.1, by rw [hsame hj]⟩⟩

def threeQuarters : LoadFactor := ⟨12582912, 24, by decide, by decide, by decide⟩

/-- A map for two entries that four keys come to and go from again. -/
def grownThenEmptied : Session .byte Nat :=
  (Session.addMap ⟨[], []⟩ (.withSizing (.forTarget 2 threeQuarters 255) 0)).session.after
    [(0, .insert 1 10), (0, .insert 2 20), (0, .insert 3 30), (0, .insert 4 40),
      (0, .retain fun _ _ => false)]

theorem grownThenEmptied_capacity : ∃ past m,
    Lineage 2 threeQuarters grownThenEmptied 0 past ∧ past.peak = 4 ∧
    grownThenEmptied.maps[0]? = some m ∧ m.size = 0 ∧ m.capacity = 8 ∧
    m.capacity = (Sizing.forTarget (max 2 past.peak) threeQuarters Width.byte.domain).length := by
  have hbuilt : CodeMap.withCapacity 2 ⟨0x3f400000⟩ 0 =
      .ok (.withSizing (.forTarget 2 threeQuarters 255) 0 : CodeMap .byte Nat) := rfl
  have hline : ∃ past, Lineage 2 threeQuarters grownThenEmptied 0 past ∧ past.peak = 4 := by
    refine ⟨_, .perform (.perform (.perform (.perform (.perform
      (.built .start (.withCapacity hbuilt rfl ?_)) _) _) _) _) _, ?_⟩
    · exact Nat.le_of_ble_eq_true rfl
    · decide +kernel
  have hm : grownThenEmptied.maps[0]?.map (fun m => (m.size, m.capacity)) = some (0, 8) := by decide +kernel
  obtain ⟨past, h, hpeak⟩ := hline
  obtain ⟨m, hget, hcap, _⟩ := lineage_capacity h
  rw [hget] at hm
  obtain ⟨hsize, hcap'⟩ := Prod.mk.inj (Option.some.inj hm)
  exact ⟨past, m, h, hpeak, hget, hsize, hcap', hcap⟩

/-- Whatever happened before, maps of one capacity with the same keys hold the same slots. -/
theorem reachable_layoutAgrees (h : s.Reachable) (h' : s'.Reachable) (hm : m ∈ s.maps)
    (hm' : m' ∈ s'.maps) (hkeys : ∀ key, key ≠ .null w → m'.contains key = m.contains key)
    (hcap : m'.capacity = m.capacity) : m.LayoutAgrees m' :=
  (h.valid m hm).layoutAgrees (h'.valid m' hm') hkeys hcap

/-- Two keys with one home. -/
def sevenFirst : Session .byte Nat :=
  (Session.addMap ⟨[], []⟩ (.empty 0)).session.after [(0, .insert 7 70), (0, .insert 11 110)]

def halfFull (capacity : Nat) : CodeMap .byte Bool :=
  .withSizing (.forTarget capacity ⟨8388608, 24, by decide, by decide, by decide⟩ 255) true

/-- The same keys the other way round, at another load factor and after a removal. -/
def elevenFirst : Session .byte Bool :=
  (Session.addMap ⟨[], []⟩ (halfFull 12)).session.after
    [(0, .insert 9 true), (0, .insert 11 true), (0, .insert 7 true),
      (0, .retain fun _ e => e.key != 9)]

theorem sevenFirst_layoutAgrees_elevenFirst : ∃ m m',
    sevenFirst.maps[0]? = some m ∧ elevenFirst.maps[0]? = some m' ∧
    m.table.entries.map Entry.key = [7, 11] ∧ m'.table.entries.map Entry.key = [11, 7] ∧
    m.LayoutAgrees m' := by
  have hseven : sevenFirst.Reachable := .after (.addMap .start (.empty 0)) _
  have hbuilt : CodeMap.withCapacity 12 ⟨0x3f000000⟩ true = .ok (halfFull 12) := rfl
  have heleven : elevenFirst.Reachable :=
    .after (.addMap .start (.withCapacity hbuilt (Nat.le_of_ble_eq_true rfl))) _
  have hm : sevenFirst.maps[0]?.map (fun m => (m.capacity, m.table.entries.map Entry.key)) =
      some (32, [7, 11]) := by decide +kernel
  have hm' : elevenFirst.maps[0]?.map (fun m => (m.capacity, m.table.entries.map Entry.key)) =
      some (32, [11, 7]) := by decide +kernel
  obtain ⟨m, hget, hlist⟩ := Option.map_eq_some_iff.mp hm
  obtain ⟨m', hget', hlist'⟩ := Option.map_eq_some_iff.mp hm'
  obtain ⟨hcap, hkeys⟩ := Prod.mk.inj hlist
  obtain ⟨hcap', hkeys'⟩ := Prod.mk.inj hlist'
  have hmem := List.mem_of_getElem? hget
  have hmem' := List.mem_of_getElem? hget'
  refine ⟨m, m', hget, hget', hkeys, hkeys', ?_⟩
  apply reachable_layoutAgrees hseven heleven hmem hmem' ?_ (hcap'.trans hcap.symm)
  intro key hk
  rw [Bool.eq_iff_iff, (hseven.valid m hmem).contains_iff hk, (heleven.valid m' hmem').contains_iff hk,
    hkeys, hkeys']
  exact (List.Perm.swap 7 11 []).mem_iff

/-- An insertion that makes the table grow builds it as if the keys were placed one by one. -/
theorem reachable_growth_regrown (h : s.Reachable) (hm : m ∈ s.maps) {key : CodeUnit w} {value : V}
    {event : TableEvent} (hg : (m.insert key value).growth = some event) :
    ∃ k, m.table.EndsVacant key k ∧ (m.occupy k ⟨key, value⟩).Overfull ∧
      CodeMap.Regrown (m.occupy k ⟨key, value⟩) (m.insert key value).map event := by
  have hv := h.valid m hm
  have hx : m.Exceeds key := by
    by_contra hn
    rw [(hv.insert_stays hn value).1] at hg
    cases hg
  obtain ⟨k, hend, hover, hins⟩ := hv.insert_exceeds hx value
  refine ⟨k, hend, hover, ?_⟩
  rw [hins] at hg ⊢
  obtain rfl := Option.some.inj hg
  exact hover.regrown

def nineTenths : LoadFactor := ⟨15099494, 24, by decide, by decide, by decide⟩

/-- A map with four slots that is about to fill up. -/
def atThreshold : Session .byte Nat :=
  (Session.addMap ⟨[], []⟩ (.withSizing (.forTarget 3 nineTenths 255) 0)).session.after
    [(0, .insert 1 10), (0, .insert 2 20), (0, .insert 3 30)]

theorem atThreshold_regrown : ∃ m k, atThreshold.maps[0]? = some m ∧ m.table.EndsVacant 5 k ∧
    CodeMap.Regrown (m.occupy k ⟨5, 50⟩) (m.insert 5 50).map (.grown 4 8 4 1) := by
  have hbuilt : CodeMap.withCapacity 3 ⟨0x3f666666⟩ 0 =
      .ok (.withSizing (.forTarget 3 nineTenths 255) 0 : CodeMap .byte Nat) := rfl
  have hreach : atThreshold.Reachable :=
    .after (.addMap .start (.withCapacity hbuilt (Nat.le_of_ble_eq_true rfl))) _
  have hgrown : atThreshold.maps[0]?.map (fun m => (m.insert 5 50).growth) =
      some (some (.grown 4 8 4 1)) := by decide +kernel
  obtain ⟨m, hm, hevent⟩ := Option.map_eq_some_iff.mp hgrown
  obtain ⟨k, hend, _, hr⟩ :=
    reachable_growth_regrown hreach (List.mem_of_getElem? hm) hevent
  exact ⟨m, k, hm, hend, hr⟩

end Session

end LexBase
