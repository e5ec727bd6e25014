import LexBase.Proofs.CodeMap.Turnover
import LexBase.Proofs.Session.Walks
import LexBase.Proofs.Walker.Outcome

/-!
# Asking before every call

A walker can be asked whether there is more. The question and the next call scan the same slots and
then look at the same null slot, so the one foretells the other, in every state of the walker and on
every map. A loop that asks before every call never calls in vain. It comes to an end although a
removal rewinds the walker, since an entry less outweighs the slots to be looked at once more.
-/

namespace LexBase

set_option autoImplicit false

variable {w : Width} {V : Type} [BEq V]

namespace Walker

variable {c c' : Walker w} {m : CodeMap w V} {e : Entry w V}

theorem hasNext_of_matches (h : c.matchesMap m = true) :
    c.hasNext m = ((c.ahead? m).isSome || (!c.nullVisited && m.presentNull.isSome)) := by
  have hscan := isSome_firstSome (fun o => m.table.slot? (c.slotAt o)) c.offset (c.span - c.offset)
  rw [hasNext, h, ← hscan]
  rfl

theorem hasNext_iff (c : Walker w) (m : CodeMap w V) :
    c.hasNext m = true ↔ (c.next m).1 ≠ .error .exhausted := by
  cases hmatch : c.matchesMap m with
  | false =>
    rw [hasNext_of_differs hmatch, next_of_differs hmatch]
    simp [mismatch]
  | true =>
    rw [hasNext_of_matches hmatch]
    simp only [next, hmatch, Bool.not_true, Bool.false_eq_true, if_false]
    cases c.ahead? m with
    | some found => simp
    | none => cases c.nullVisited <;> cases m.presentNull <;> simp

theorem not_exhausted_iff (c : Walker w) (m : CodeMap w V) :
    (c.next m).1 ≠ .error .exhausted ↔ (∃ e, (c.next m).1 = .ok e) ∨ Reports (c.next m).1 := by
  have hp := c.produces m
  generalize c.next m = answer at hp ⊢
  cases hp with
  | differs _ => simp [Reports, mismatch]
  | entry _ _ => simp
  | null _ _ => simp
  | exhausted _ => simp [Reports]

omit [BEq V] in
theorem ahead?_spec {o : Nat} (h : c.ahead? m = some (o, e)) :
    c.offset ≤ o ∧ o < c.span ∧ m.table.slot? (c.slotAt o) = some e := by
  obtain ⟨i, hi, hat, _⟩ := firstSome_eq_some_iff.mp h
  obtain ⟨e', he, hpair⟩ := Option.map_eq_some_iff.mp hat
  obtain ⟨rfl, rfl⟩ := Prod.mk.inj hpair
  exact ⟨Nat.le_add_right _ _, by omega, he⟩

/-- A bound on what the walker can still produce: an entry counts for a scan of the whole table. -/
def stock (c : Walker w) (m : CodeMap w V) : Nat :=
  m.size * (c.span + 1) + (c.span - c.offset) + if c.nullVisited then 0 else 1

theorem next_stock (h : c.next m = (.ok e, c')) : c'.stock m < c.stock m := by
  unfold next at h
  split at h
  · cases h
  · cases ha : c.ahead? m with
    | some found =>
      obtain ⟨o, e'⟩ := found
      obtain ⟨hle, hlt, _⟩ := ahead?_spec ha
      rw [ha] at h
      obtain ⟨_, rfl⟩ := Prod.mk.inj h
      unfold stock
      simp only
      omega
    | none =>
      rw [ha] at h
      simp only at h
      split at h
      · next v hv =>
        obtain ⟨_, rfl⟩ := Prod.mk.inj h
        have hvisited : c.nullVisited = false := by
          cases hn : c.nullVisited with
          | false => rfl
          | true =>
            rw [hn] at hv
            cases hv
        unfold stock
        simp only [hvisited, if_true, Bool.false_eq_true, if_false]
        omega
      · cases h

theorem next_matchesMap (hmatch : c.matchesMap m = true) (h : c.next m = (.ok e, c')) :
    c'.matchesMap m = true := by
  have hsame := c.next_expects m
  rw [h] at hsame
  rw [matchesMap_iff, hsame.1, hsame.2]
  exact matchesMap_iff.mp hmatch

/-- The walker stands at what it has just produced, in whatever order it meets the entries. -/
theorem next_at (hmatch : c.matchesMap m = true) (h : c.next m = (.ok e, c')) : c'.At m e := by
  have hp := c.produces m
  rw [h] at hp
  cases hp with
  | @entry o _ _ he =>
    refine .slot rfl rfl ?_
    rw [slotAt, ← (matchesMap_iff.mp hmatch).2] at he
    exact he
  | null _ hn => exact .null rfl hn

theorem next_ok (hmatch : c.matchesMap m = true) (h : c.hasNext m = true) :
    ∃ e c', c.next m = (.ok e, c') := by
  have hp := c.produces m
  have hne := (c.hasNext_iff m).mp h
  generalize c.next m = answer at hp hne ⊢
  cases hp with
  | differs hdiff =>
    rw [hmatch] at hdiff
    cases hdiff
  | entry _ _ => exact ⟨_, _, rfl⟩
  | null _ _ => exact ⟨_, _, rfl⟩
  | exhausted _ => exact absurd rfl hne

theorem remove_ok (hmatch : c.matchesMap m = true) (hat : c.At m e) :
    (c.remove m).answer = .ok e.value := by
  cases hat with
  | @slot o e hc _ he =>
    have hslot : m.table.slot? (c.slotAt o) = some e := by
      rw [slotAt, ← (matchesMap_iff.mp hmatch).2]
      exact he
    simp only [remove, hmatch, hc, Bool.not_true, Bool.false_eq_true, if_false,
      CodeMap.removeSlot_eq, Table.remove_of_some hslot, Option.map_some]
  | null hc hn =>
    simp only [remove, hmatch, hc, Bool.not_true, Bool.false_eq_true, if_false, CodeMap.clearNull,
      hn]

theorem remove_matchesMap (hv : m.Valid) (hmatch : c.matchesMap m = true) :
    (c.remove m).walker.matchesMap (c.remove m).map = true := by
  obtain ⟨hsize, hspan⟩ := matchesMap_iff.mp hmatch
  have hbalance := remove_balance hv c
  have hcapacity := (CodeMap.Sheds.refl.remove c).capacity hv
  rw [matchesMap_iff, hcapacity, remove_span hv.table.aligned, hspan]
  omega

/-- A removal may rewind the walker, but not by more than an entry is worth. -/
theorem remove_stock (hv : m.Valid) (c : Walker w) :
    (c.remove m).walker.stock (c.remove m).map ≤ c.stock m := by
  have hr := removes hv.table.aligned c
  generalize c.remove m = r at hr ⊢
  cases hr with
  | differs _ => exact Nat.le_refl _
  | unset _ _ => exact Nat.le_refl _
  | vacant _ _ _ => exact Nat.le_refl _
  | absent _ _ _ => exact Nat.le_refl _
  | null _ _ _ => exact Nat.le_refl _
  | @entry o i e m' event _ _ hs hr =>
    have hsize := hv.size_removeSlot hs
    rw [hr] at hsize
    unfold stock rewound
    rw [← hsize, Nat.succ_mul]
    simp only
    omega

end Walker

namespace Walk

variable {k k' : Walk w V} {choose : Chooser w V} {e : Entry w V}

/-- The loop that asks whether there is more, takes the next entry and removes it if the chooser says
so, as long as there is more; it runs `n` times. -/
inductive Sweeps (choose : Chooser w V) : Walk w V → Nat → Walk w V → Prop where
  | done {k : Walk w V} : k.walker.hasNext k.map = false → Sweeps choose k 0 k
  | step {k k' : Walk w V} {c : Walker w} {e : Entry w V} {n : Nat} :
      k.walker.hasNext k.map = true → k.walker.next k.map = (.ok e, c) →
      Sweeps choose (visit choose { k with walker := c } e) n k' → Sweeps choose k (n + 1) k'

/-- Nothing has interfered with the walk, and each removal has succeeded. -/
structure Undisturbed (k : Walk w V) : Prop where
  valid : k.map.Valid
  matched : k.walker.matchesMap k.map = true
  succeeded : ∀ v ∈ k.visits, v.Succeeds

theorem Undisturbed.visit (h : k.Undisturbed) (hat : k.walker.At k.map e) (choose : Chooser w V) :
    (visit choose k e).Undisturbed ∧
      (visit choose k e).walker.stock (visit choose k e).map ≤ k.walker.stock k.map := by
  obtain ⟨walker, map, visits, events⟩ := k
  have hpush : ∀ v : Visit w V, v.Succeeds → ∀ v' ∈ visits.push v, v'.Succeeds := by
    intro v hv v' hv'
    rcases Array.mem_push.mp hv' with hold | rfl
    · exact h.succeeded v' hold
    · exact hv
  unfold Walk.visit
  simp only
  split
  · refine ⟨⟨h.valid.remove walker, Walker.remove_matchesMap h.valid h.matched, ?_⟩,
      Walker.remove_stock h.valid walker⟩
    apply hpush
    intro r hr
    obtain rfl := Option.some.inj hr
    exact Walker.remove_ok h.matched hat
  · refine ⟨⟨h.valid, h.matched, ?_⟩, Nat.le_refl _⟩
    apply hpush
    intro r hr
    cases hr

theorem Undisturbed.sweeps (h : k.Undisturbed) (choose : Chooser w V) :
    ∃ n k', n ≤ k.walker.stock k.map ∧ Sweeps choose k n k' ∧ k'.Undisturbed := by
  generalize hs : k.walker.stock k.map = stock
  induction stock using Nat.strong_induction_on generalizing k with
  | _ stock ih =>
    cases hnext : k.walker.hasNext k.map with
    | false => exact ⟨0, k, Nat.zero_le _, .done hnext, h⟩
    | true =>
      obtain ⟨e, c, htake⟩ := Walker.next_ok h.matched hnext
      have hlt := Walker.next_stock htake
      have hat := Walker.next_at h.matched htake
      have hc : ({ k with walker := c } : Walk w V).Undisturbed :=
        ⟨h.valid, Walker.next_matchesMap h.matched htake, h.succeeded⟩
      obtain ⟨hvisit, hle⟩ := hc.visit hat choose
      change _ ≤ c.stock k.map at hle
      obtain ⟨n, k', hn, hrun, hend⟩ := ih _ (by omega) hvisit rfl
      exact ⟨n + 1, k', by omega, .step hnext htake hrun, hend⟩

end Walk

/-- Asked whether there is more, the walker tells what the next call will be. -/
structure Walker.Foretells (c : Walker w) (m : CodeMap w V) : Prop where
  hasNext_iff : c.hasNext m = true ↔ (∃ e, (c.next m).1 = .ok e) ∨ Reports (c.next m).1
  not_hasNext_iff : c.hasNext m = false ↔ (c.next m).1 = .error .exhausted
  reports_iff : Reports (c.next m).1 ↔ c.matchesMap m = false
  /-- The loop meets neither a report nor the end, whatever it removes, and it comes to an end. -/
  sweeps : c.matchesMap m = true → ∀ choose, ∃ n k, n ≤ c.stock m ∧
    Walk.Sweeps choose ⟨c, m, #[], #[]⟩ n k ∧ ∀ v ∈ k.visits, v.Succeeds

theorem Walker.foretells {m : CodeMap w V} (h : m.Valid) (c : Walker w) : c.Foretells m := by
  have hiff := c.hasNext_iff m
  refine ⟨hiff.trans (c.not_exhausted_iff m), ?_, ?_, ?_⟩
  · rw [← Bool.not_eq_true, hiff, not_not]
  · constructor
    · intro hreports
      rw [← Bool.not_eq_true]
      exact fun hmatch => next_not_reports hmatch hreports
    · intro hdiff
      rw [next_of_differs hdiff]
      exact ⟨_, _, rfl⟩
  · intro hmatch choose
    have hstart : (⟨c, m, #[], #[]⟩ : Walk w V).Undisturbed :=
      ⟨h, hmatch, fun v hv => absurd hv (Array.not_mem_empty v)⟩
    obtain ⟨n, k, hn, hrun, hend⟩ := hstart.sweeps choose
    exact ⟨n, k, hn, hrun, hend.succeeded⟩

namespace Session

variable {s : Session w V} {i c : Nat} {walker : Walker w} {m : CodeMap w V}

theorem Pair.hasNext (hp : s.Pair i c walker m) :
    s.perform i (.hasNext c) = ⟨.flag (walker.hasNext m), s, #[]⟩ := by
  simp only [perform, hp.walker_eq, ask, hp.map_eq, Option.map_some, Option.getD_some]

/-- In a reachable session the question whether there is more changes nothing, and it foretells the
call after it, for every walker on every map. -/
theorem reachable_walker_foretells (h : s.Reachable) (hp : s.Pair i c walker m) :
    s.perform i (.hasNext c) = ⟨.flag (walker.hasNext m), s, #[]⟩ ∧
      (s.perform i (.next c)).reply = .produced (walker.next m).1 ∧ walker.Foretells m :=
  ⟨hp.hasNext, hp.next_reply, Walker.foretells (h.valid m (List.mem_of_getElem? hp.map_eq)) walker⟩

/-- A walker that a removal has rewound to a slot that is held again, and the null key. -/
def backedUp : Session .byte Nat :=
  (Session.addMap ⟨[], []⟩ (.empty 0)).session.after
    [(0, .insert 7 1), (0, .insert 11 2), (0, .insert 0 5), (0, .walker), (0, .next 0),
      (0, .remove 0)]

theorem backedUp_walker_foretells : ∃ walker m, backedUp.Pair 0 0 walker m ∧
    walker.hasNext m = true ∧ walker.matchesMap m = true ∧ walker.Foretells m ∧
    ∃ n k, Walk.Sweeps (fun _ _ => true) ⟨walker, m, #[], #[]⟩ n k := by
  have hreach : backedUp.Reachable := .after (.addMap .start (.empty 0)) _
  have hfacts : (backedUp.walkers[0]?.bind fun c => backedUp.maps[0]?.map fun m =>
      (c.hasNext m, c.matchesMap m)) = some (true, true) := by
    decide +kernel
  obtain ⟨walker, hwalker, hrest⟩ := Option.bind_eq_some_iff.mp hfacts
  obtain ⟨m, hm, hboth⟩ := Option.map_eq_some_iff.mp hrest
  obtain ⟨hnext, hmatch⟩ := Prod.mk.inj hboth
  have hp : backedUp.Pair 0 0 walker m := ⟨hwalker, hm⟩
  obtain ⟨_, _, hforetells⟩ := reachable_walker_foretells hreach hp
  obtain ⟨n, k, _, hrun, _⟩ := hforetells.sweeps hmatch fun _ _ => true
  exact ⟨walker, m, hp, hnext, hmatch, hforetells, n, k, hrun⟩

end Session

end LexBase
