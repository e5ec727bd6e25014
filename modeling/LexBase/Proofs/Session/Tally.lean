import LexBase.Proofs.CodeMap.Turnover
import LexBase.Proofs.Session.Walks
import LexBase.Proofs.Walker.Outcome

/-!
# What a walker notices

A walker is used with its map while other commands run on any maps of the session. The tally of such
a history counts the keys that came and the keys that others took away, by their presence alone. The
walker refuses its calls exactly when the two numbers differ or the table has grown, so what it can
miss is as many removals as fresh keys.
-/

namespace LexBase

set_option autoImplicit false

variable {w : Width} {V : Type} [BEq V]

/-- What has happened to a map since a walker was made for it. -/
structure Tally (w : Width) where
  /-- Fresh non-null keys. -/
  added : Nat := 0
  /-- Non-null entries that others removed. -/
  removed : Nat := 0
  /-- Non-null entries that the walker removed. -/
  own : Nat := 0
  grown : Bool := false
  /-- The key the walker last produced. -/
  latest : Option (CodeUnit w) := none
  /-- Non-null entries that others removed since then. -/
  stirred : Nat := 0

namespace Tally

variable (t : Tally w) (m m' : CodeMap w V)

def produced (r : Except WalkError (Entry w V)) : Tally w :=
  match r with
  | .ok e => { t with latest := some e.key, stirred := 0 }
  | .error _ => t

def taken : Tally w := { t with own := t.own + m'.gain m }

def changed : Tally w :=
  { t with
    added := t.added + m.gain m'
    removed := t.removed + m'.gain m
    grown := t.grown || decide (m.capacity < m'.capacity)
    stirred := t.stirred + m'.gain m }

/-- The walker refuses its calls after such a history. -/
def Refused : Prop := t.added ≠ t.removed ∨ t.grown = true

end Tally

namespace Session

/-- The points that a walker comes to when it is used with the map at `i` only. -/
inductive Since (i c : Nat) (s₀ : Session w V) (t₀ : Tally w) : Session w V → Tally w → Prop where
  | refl : Since i c s₀ t₀ s₀ t₀
  | next {s : Session w V} {t : Tally w} {r : Except WalkError (Entry w V)} :
      Since i c s₀ t₀ s t → (s.perform i (.next c)).reply = .produced r →
      Since i c s₀ t₀ (s.perform i (.next c)).session (t.produced r)
  | remove {s : Session w V} {t : Tally w} {m m' : CodeMap w V} :
      Since i c s₀ t₀ s t → s.maps[i]? = some m →
      (s.perform i (.remove c)).session.maps[i]? = some m' →
      Since i c s₀ t₀ (s.perform i (.remove c)).session (t.taken m m')
  | other {s : Session w V} {t : Tally w} {j : Nat} {k : Command w V} {m m' : CodeMap w V} :
      Since i c s₀ t₀ s t → k.uses c = false → s.maps[i]? = some m →
      (s.perform j k).session.maps[i]? = some m' →
      Since i c s₀ t₀ (s.perform j k).session (t.changed m m')

/-- Every call of the walker is refused and changes nothing. -/
structure Refuses (s : Session w V) (i c expected found : Nat) : Prop where
  hasNext : s.perform i (.hasNext c) = ⟨.flag true, s, #[]⟩
  next : s.perform i (.next c) =
    ⟨.produced (.error (.concurrentModification expected found)), s, #[]⟩
  remove : s.perform i (.remove c) =
    ⟨.taken (.error (.concurrentModification expected found)), s, #[]⟩

/-- No call of the walker reports a map that differs. -/
structure Admits (s : Session w V) (i c : Nat) : Prop where
  next : ∃ r, (s.perform i (.next c)).reply = .produced r ∧ ¬ Reports r
  remove : ∃ r, (s.perform i (.remove c)).reply = .taken r ∧ ¬ Reports r

end Session

namespace Walker

variable {c : Walker w} {m₀ m m' : CodeMap w V} {t : Tally w}

structure Counted (c : Walker w) (m₀ m : CodeMap w V) (t : Tally w) : Prop where
  valid : m.Valid
  expected_add : c.expected + t.own = m₀.size
  span_eq : c.span = m₀.capacity
  size_add : m.size + t.removed + t.own = m₀.size + t.added
  capacity_le : m₀.capacity ≤ m.capacity
  grown_iff : t.grown = true ↔ m₀.capacity < m.capacity

omit [BEq V] in
theorem counted_walker (h : m.Valid) : m.walker.Counted m m {} where
  valid := h
  expected_add := rfl
  span_eq := rfl
  size_add := rfl
  capacity_le := Nat.le_refl _
  grown_iff := by simp

namespace Counted

variable (h : c.Counted m₀ m t)
include h

theorem next : (c.next m).2.Counted m₀ m (t.produced (c.next m).1) := by
  obtain ⟨hexp, hspan⟩ := c.next_expects m
  have hadd := h.expected_add
  rw [← hexp] at hadd
  have hspan' := hspan.trans h.span_eq
  cases (c.next m).1 with
  | ok e => exact ⟨h.valid, hadd, hspan', h.size_add, h.capacity_le, h.grown_iff⟩
  | error err => exact ⟨h.valid, hadd, hspan', h.size_add, h.capacity_le, h.grown_iff⟩

theorem remove : (c.remove m).walker.Counted m₀ (c.remove m).map (t.taken m (c.remove m).map) := by
  have hv := h.valid.remove c
  have hbalance := remove_balance h.valid c
  have hgain := h.valid.size_add_gain hv
  have hsheds : m.Sheds (c.remove m).map := CodeMap.Sheds.refl.remove c
  have hnone := hsheds.gain h.valid
  have hcap := hsheds.capacity h.valid
  have hadd := h.expected_add
  have hsize := h.size_add
  refine ⟨hv, ?_, (Walker.remove_span h.valid.table.aligned c).trans h.span_eq, ?_, ?_, ?_⟩
  · simp only [Tally.taken]
    omega
  · simp only [Tally.taken]
    omega
  · rw [hcap]
    exact h.capacity_le
  · rw [hcap]
    exact h.grown_iff

theorem other (hb : m.Becomes m') : c.Counted m₀ m' (t.changed m m') := by
  have hv := hb.valid h.valid
  have hgain := h.valid.size_add_gain hv
  have hcap := hb.capacity_le h.valid
  have hle := h.capacity_le
  have hsize := h.size_add
  refine ⟨hv, h.expected_add, h.span_eq, ?_, Nat.le_trans hle hcap, ?_⟩
  · simp only [Tally.changed]
    omega
  · simp only [Tally.changed, Bool.or_eq_true, decide_eq_true_eq]
    rw [h.grown_iff]
    omega

omit [BEq V] in
theorem refused_iff : t.Refused ↔ c.matchesMap m = false := by
  have hadd := h.expected_add
  have hsize := h.size_add
  have hle := h.capacity_le
  rw [← Bool.not_eq_true, matchesMap_iff, h.span_eq, Tally.Refused, h.grown_iff]
  omega

end Counted

end Walker

namespace Session

variable {s₀ s s' : Session w V} {i c : Nat} {m₀ m : CodeMap w V} {t₀ t t' : Tally w}
  {walker : Walker w}

/-- What the calls of the walker and all other commands keep holds at every point. -/
theorem Since.keeps {P : Walker w → CodeMap w V → Tally w → Prop}
    (hnext : ∀ {c m t}, P c m t → P (c.next m).2 m (t.produced (c.next m).1))
    (hremove : ∀ {c m t}, P c m t →
      P (c.remove m).walker (c.remove m).map (t.taken m (c.remove m).map))
    (hother : ∀ {c m m' t}, P c m t → m.Becomes m' → P c m' (t.changed m m'))
    (hp : s₀.Pair i c walker m) (h : P walker m t₀) (hs : Since i c s₀ t₀ s t) :
    ∃ walker' m', s.Pair i c walker' m' ∧ P walker' m' t := by
  induction hs with
  | refl => exact ⟨walker, m, hp, h⟩
  | next _ hr ih =>
    obtain ⟨walker', m', hp', h'⟩ := ih
    rw [hp'.next_reply] at hr
    obtain rfl := Reply.produced.inj hr
    exact ⟨_, m', hp'.next, hnext h'⟩
  | remove _ hm hm' ih =>
    obtain ⟨walker', m', hp', h'⟩ := ih
    obtain rfl := Option.some.inj (hp'.map_eq.symm.trans hm)
    obtain rfl := Option.some.inj (hp'.remove.map_eq.symm.trans hm')
    exact ⟨_, _, hp'.remove, hremove h'⟩
  | @other s t j k _ _ _ huses hm hm' ih =>
    obtain ⟨walker', m', hp', h'⟩ := ih
    obtain rfl := Option.some.inj (hp'.map_eq.symm.trans hm)
    obtain ⟨m'', hm'', hb, _⟩ := (perform_follows s j k).old i m' hp'.map_eq
    obtain rfl := Option.some.inj (hm''.symm.trans hm')
    exact ⟨walker', m'', ⟨walkers_perform hp'.walker_eq huses, hm'⟩, hother h' hb⟩

theorem Since.counted (hp : s₀.Pair i c walker m) (hc : walker.Counted m₀ m t₀)
    (hs : Since i c s₀ t₀ s t) : ∃ walker' m', s.Pair i c walker' m' ∧ walker'.Counted m₀ m' t :=
  hs.keeps (P := fun c m t => c.Counted m₀ m t) Walker.Counted.next Walker.Counted.remove
    Walker.Counted.other hp hc

theorem Since.added_le (hs : Since i c s₀ t₀ s t) : t₀.added ≤ t.added := by
  induction hs with
  | refl => exact Nat.le_refl _
  | @next s t r _ _ ih => cases r <;> exact ih
  | remove _ _ _ ih => exact ih
  | other _ _ _ _ ih => exact Nat.le_trans ih (Nat.le_add_right _ _)

theorem Pair.refuses (hp : s.Pair i c walker m) (h : walker.matchesMap m = false) :
    s.Refuses i c walker.expected m.size where
  hasNext := by
    rw [perform, hp.walker_eq]
    simp only [ask, hp.map_eq, Option.map_some, Option.getD_some, walker.hasNext_of_differs h]
  next := by
    rw [perform]
    apply withWalker_eq_self hp.walker_eq hp.map_eq
    rw [walker.next_of_differs h]
    rfl
  remove := by
    rw [perform]
    apply withWalker_eq_self hp.walker_eq hp.map_eq
    rw [walker.remove_of_differs h]
    rfl

theorem Pair.admits_iff (hp : s.Pair i c walker m) (ha : m.table.Aligned) :
    s.Admits i c ↔ walker.matchesMap m = true := by
  constructor
  · intro hadmits
    apply Bool.of_not_eq_false
    intro hdiff
    obtain ⟨r, hr, hno⟩ := hadmits.next
    rw [(hp.refuses hdiff).next] at hr
    obtain rfl := Reply.produced.inj hr
    exact hno ⟨_, _, rfl⟩
  · intro h
    exact ⟨⟨_, hp.next_reply, walker.next_not_reports h⟩,
      ⟨_, hp.remove_reply, walker.remove_not_reports ha h⟩⟩

theorem Pair.decided (hp : s.Pair i c walker m) (h : walker.Counted m₀ m t) :
    (t.Refused → ∃ expected, expected + t.own = m₀.size ∧ s.Refuses i c expected m.size) ∧
      (¬ t.Refused → s.Admits i c) := by
  rw [h.refused_iff]
  constructor
  · intro hdiff
    exact ⟨_, h.expected_add, hp.refuses hdiff⟩
  · intro hmatch
    exact (hp.admits_iff h.valid.table.aligned).mpr (Bool.of_not_eq_false hmatch)

end Session

/-- An overwrite, or a call at the null key. -/
inductive Command.Spares (s : Session w V) (m : CodeMap w V) : Command w V → Prop where
  | insert {key : CodeUnit w} {value : V} : key = .null w ∨ m.contains key = true →
      Spares s m (.insert key value)
  | remove {d : Nat} {walker : Walker w} : s.walkers[d]? = some walker →
      walker.current = some .null → Spares s m (.remove d)

namespace Session

variable {s s' : Session w V} {i c : Nat} {m₀ m : CodeMap w V} {t : Tally w}

theorem sameKeys_of_spares {k : Command w V} (hk : k.Spares s m) (hm : s.maps[i]? = some m)
    (hv : m.Valid) : ∃ m', (s.perform i k).session.maps[i]? = some m' ∧ m.SameKeys m' := by
  cases hk with
  | insert hkey => exact ⟨_, maps_insert hm _ _, hv.insert_sameKeys _ hkey⟩
  | remove hd hcur =>
    have hp : s.Pair i _ _ m := ⟨hd, hm⟩
    exact ⟨_, hp.remove.map_eq, Walker.remove_sameKeys hv.table.aligned hcur⟩

/-- What a fresh walker notices of everything else that happens to its map, over every history. -/
theorem fresh_walker_refuses_iff (h : s.Reachable) (hm : s.maps[i]? = some m₀)
    (hc : c = s.walkers.length) (hs : Since i c (s.perform i .walker).session {} s' t) :
    ∃ m, s'.maps[i]? = some m ∧
      (t.Refused → ∃ expected, expected + t.own = m₀.size ∧ s'.Refuses i c expected m.size) ∧
      (¬ t.Refused → s'.Admits i c) ∧
      (∀ key value s'' t'', key ≠ .null w → m.contains key = false →
        Since i c (s'.perform i (.insert key value)).session
          (t.changed m (m.insert key value).map) s'' t'' → t''.removed = 0 →
        ∃ m'' expected, s''.maps[i]? = some m'' ∧ expected + t''.own = m₀.size ∧
          s''.Refuses i c expected m''.size) ∧
      (∀ k : Command w V, k.uses c = false → k.Spares s' m →
        ((s'.perform i k).session.Admits i c ↔ s'.Admits i c)) := by
  subst hc
  have hv := h.valid m₀ (List.mem_of_getElem? hm)
  obtain ⟨walker, m, hp, hcount⟩ := hs.counted (pair_walker hm) (Walker.counted_walker hv)
  obtain ⟨hrefused, hadmitted⟩ := hp.decided hcount
  refine ⟨m, hp.map_eq, hrefused, hadmitted, ?_, ?_⟩
  · intro key value s'' t'' hkey hfresh hs'' hnone
    have hp' : (s'.perform i (.insert key value)).session.Pair i s.walkers.length walker
        (m.insert key value).map :=
      ⟨walkers_perform hp.walker_eq rfl, maps_insert hp.map_eq key value⟩
    obtain ⟨walker'', m'', hp'', hcount''⟩ := hs''.counted hp' (hcount.other (.insert key value))
    have hr : t''.Refused := by
      have hadded := hs''.added_le
      simp only [Tally.changed, hcount.valid.insert_gain value hkey hfresh] at hadded
      apply Or.inl
      omega
    obtain ⟨expected, hexp, hrefuses⟩ := (hp''.decided hcount'').1 hr
    exact ⟨m'', expected, hp''.map_eq, hexp, hrefuses⟩
  · intro k huses hk
    obtain ⟨m', hm', hkeys⟩ := sameKeys_of_spares hk hp.map_eq hcount.valid
    obtain ⟨m'', hm'', hb, _⟩ := (perform_follows s' i k).old i m hp.map_eq
    obtain rfl := Option.some.inj (hm''.symm.trans hm')
    have hp' : (s'.perform i k).session.Pair i s.walkers.length walker m'' :=
      ⟨walkers_perform hp.walker_eq huses, hm'⟩
    have hv'' := hb.valid hcount.valid
    rw [hp.admits_iff hcount.valid.table.aligned, hp'.admits_iff hv''.table.aligned,
      walker.matchesMap_of_sameSlots (hb.sameSlots hcount.valid hkeys)]

/-- The walker has removed an entry of its own before a key comes that it does not know of. -/
def ownKeyRemoved : Session .byte Nat :=
  (twoKeysAndNull.perform 0 .walker).session.after [(0, .next 0), (0, .remove 0)]

def foreignKeyAdded : Session .byte Nat := (ownKeyRemoved.perform 0 (.insert 11 110)).session

theorem foreignKeyAdded_walker_refuses :
    ∃ t m, Since 0 0 (twoKeysAndNull.perform 0 .walker).session {} foreignKeyAdded t ∧
      t.added = 1 ∧ t.removed = 0 ∧ t.own = 1 ∧ foreignKeyAdded.maps[0]? = some m ∧
      foreignKeyAdded.Refuses 0 0 1 2 := by
  have hreach : twoKeysAndNull.Reachable := .after (.addMap .start (.empty 0)) _
  have hsize : twoKeysAndNull.maps[0]?.map CodeMap.size = some 2 := by decide +kernel
  have hown : (twoKeysAndNull.maps[0]?.bind fun m =>
      ownKeyRemoved.maps[0]?.map fun m' => m'.gain m) = some 1 := by
    decide +kernel
  have hcome : (ownKeyRemoved.maps[0]?.bind fun m => foreignKeyAdded.maps[0]?.map fun m' =>
      (m.gain m', m'.gain m, m'.size)) = some (1, 0, 2) := by
    decide +kernel
  obtain ⟨m₀, hm₀, hn⟩ := Option.map_eq_some_iff.mp hsize
  obtain ⟨m₀', hm₀', hrest⟩ := Option.bind_eq_some_iff.mp hown
  obtain rfl := Option.some.inj (hm₀.symm.trans hm₀')
  obtain ⟨m₁, hm₁, hgone⟩ := Option.map_eq_some_iff.mp hrest
  obtain ⟨m₁', hm₁', hrest⟩ := Option.bind_eq_some_iff.mp hcome
  obtain rfl := Option.some.inj (hm₁.symm.trans hm₁')
  obtain ⟨m₂, hm₂, hgains⟩ := Option.map_eq_some_iff.mp hrest
  obtain ⟨hadded, hremoved, hfound⟩ : m₁.gain m₂ = 1 ∧ m₂.gain m₁ = 0 ∧ m₂.size = 2 := by
    simpa using hgains
  have hnext : Since 0 0 (twoKeysAndNull.perform 0 .walker).session {}
      ((twoKeysAndNull.perform 0 .walker).session.perform 0 (.next 0)).session
      ((({} : Tally .byte)).produced (.ok (⟨7, 70⟩ : Entry .byte Nat))) := .next .refl rfl
  have hremove := Since.remove hnext hm₀ hm₁
  have hs := Since.other (j := 0) (k := .insert 11 110) hremove rfl hm₁ hm₂
  obtain ⟨m, hm, hrefused, _⟩ := fresh_walker_refuses_iff hreach hm₀ rfl hs
  obtain rfl := Option.some.inj (hm₂.symm.trans hm)
  have hdiffer : ((({} : Tally .byte).produced (.ok (⟨7, 70⟩ : Entry .byte Nat))).taken m₀ m₁
      |>.changed m₁ m₂).Refused := by
    apply Or.inl
    simp [Tally.changed, Tally.taken, Tally.produced, hadded, hremoved]
  obtain ⟨expected, hexp, hrefuses⟩ := hrefused hdiffer
  simp only [Tally.changed, Tally.taken, Tally.produced, hgone, hn] at hexp
  obtain rfl : expected = 1 := by omega
  refine ⟨_, m₂, hs, ?_, ?_, ?_, hm₂, ?_⟩
  · simp [Tally.changed, Tally.taken, Tally.produced, hadded]
  · simp [Tally.changed, Tally.taken, Tally.produced, hremoved]
  · simp [Tally.changed, Tally.taken, Tally.produced, hgone]
  · rw [← hfound]
    exact hrefuses
end Session

end LexBase
