import LexBase.Proofs.CodeMap.Contents
import LexBase.Proofs.Walker.Calls
import LexBase.Walk

/-!
# Walks over the contents

A walker that stands at an entry removes just that entry from the contents and keeps what is still
to come. So a walk asks about every entry once, in an order of its own with the null key last, and
leaves what asking in that order leaves.
-/

namespace LexBase

set_option autoImplicit false

variable {w : Width} {V : Type}

/-- Asks about entries one after the other and releases the chosen ones. -/
def Contents.sift (choose : Walk.Chooser w V) (s : Contents w V) (seen : Array (Visit w V)) :
    List (Entry w V) → Array (Visit w V) × Contents w V
  | [] => (seen, s)
  | e :: es =>
    if choose seen e then (s.release e.key).sift choose (seen.push ⟨e, some (.ok e.value)⟩) es
    else s.sift choose (seen.push ⟨e, none⟩) es

def Visit.Succeeds (v : Visit w V) : Prop := ∀ r, v.removal = some r → r = .ok v.entry.value

theorem Contents.sift_succeeds {choose : Walk.Chooser w V} (es : List (Entry w V))
    {s : Contents w V} {seen : Array (Visit w V)} (h : ∀ v ∈ seen, v.Succeeds) :
    ∀ v ∈ (s.sift choose seen es).1, v.Succeeds := by
  induction es generalizing s seen with
  | nil => exact h
  | cons e es ih =>
    unfold sift
    split
    · apply ih
      intro v hv
      rcases Array.mem_push.mp hv with hold | rfl
      · exact h v hold
      · intro r hr
        exact (Option.some.inj hr).symm
    · apply ih
      intro v hv
      rcases Array.mem_push.mp hv with hold | rfl
      · exact h v hold
      · intro r hr
        cases hr

variable [BEq V]

theorem Contents.nullEntries_release {s : Contents w V} {key : CodeUnit w} (hk : key ≠ .null w) :
    (s.release key).nullEntries = s.nullEntries := by
  unfold release
  rw [if_neg hk]
  rfl

namespace Walker

variable {c : Walker w} {m : CodeMap w V} {s : Contents w V} {e : Entry w V}

structure Leaves (c : Walker w) (m : CodeMap w V) (s : Contents w V) (e : Entry w V)
    (r : Removed w V) : Prop where
  answer_eq : r.answer = .ok e.value
  represents : r.map.Represents (s.release e.key)
  on : r.walker.On r.map
  current_eq : r.walker.current = none
  rest_perm : (r.walker.rest r.map).Perm (c.rest m)
  nullVisited_eq : r.walker.nullVisited = c.nullVisited

theorem On.leaves (h : c.On m) (ha : c.At m e) (hr : m.Represents s) :
    c.Leaves m s e (c.remove m) := by
  cases ha with
  | @slot o e hc ho he =>
    have hle := h.offset_le
    have hlt : o < m.table.length := by
      rw [ho, h.span_eq] at hle
      exact hle
    obtain ⟨t, event, hrem, htakes⟩ := h.remove_slot hc hlt he
    rw [hrem]
    refine ⟨rfl, hr.release_slot htakes.perm htakes.on.valid, htakes.on, rfl, ?_, rfl⟩
    unfold rest
    rw [ho]
    exact htakes.rest_perm
  | @null v hc hv =>
    rw [h.remove_null hc, hv]
    exact ⟨rfl, hr.release_null, h.without_null none, rfl, .refl _, rfl⟩

theorem present_of_at (hr : m.Represents s) (ha : c.At m e) :
    s.present e.key = some e.value := by
  unfold Contents.present
  cases ha with
  | @slot o e _ _ he =>
    have hmem : e ∈ m.table.entries := Table.mem_entries.mpr ⟨_, he⟩
    rw [if_neg (hr.valid.table.nonnull e hmem)]
    exact (hr.mem_iff e).mp hmem
  | null _ hp =>
    rw [if_pos rfl, ← hr.presentNull_eq]
    exact hp

theorem On.next_done (h : c.On m) (hrest : c.rest m = [])
    (hnull : c.nullVisited = true ∨ m.presentNull = none) : (c.next m).1 = .error .exhausted := by
  have hn := h.nexts
  generalize c.next m = outcome at hn ⊢
  cases hn with
  | entry _ _ _ hcons _ =>
    rw [hrest] at hcons
    cases hcons
  | null _ _ _ _ hv hp _ =>
    rcases hnull with hvisited | habsent
    · rw [hv] at hvisited
      cases hvisited
    · rw [hp] at habsent
      cases habsent
  | exhausted _ _ _ _ _ _ => rfl

end Walker

namespace Walk

variable {c : Walker w} {m : CodeMap w V} {s s' : Contents w V} {e : Entry w V}
  {choose : Chooser w V} {seen : Array (Visit w V)} {events : Array TableEvent}

theorem run_of_ok {k : Walk w V} (h : k.walker.next k.map = (.ok e, c)) (limit : Nat) :
    run choose (limit + 1) k = run choose limit (visit choose { k with walker := c } e) := by
  obtain ⟨walker, map, visits, events⟩ := k
  simp only [run, h]

theorem run_of_error {k : Walk w V} {err : WalkError} (h : k.walker.next k.map = (.error err, c))
    (limit : Nat) : run choose (limit + 1) k = ({ k with walker := c }, some err) := by
  obtain ⟨walker, map, visits, events⟩ := k
  simp only [run, h]

structure Asked (choose : Chooser w V) (c : Walker w) (m : CodeMap w V) (s : Contents w V)
    (seen : Array (Visit w V)) (e : Entry w V) (s' : Contents w V) (k : Walk w V) : Prop where
  on : k.walker.On k.map
  represents : k.map.Represents s'
  rest_perm : (k.walker.rest k.map).Perm (c.rest m)
  nullVisited_eq : k.walker.nullVisited = c.nullVisited
  sift_eq : ∀ es, s.sift choose seen (e :: es) = s'.sift choose k.visits es
  nullEntries_eq : e.key ≠ .null w → s'.nullEntries = s.nullEntries

theorem visit_asked (choose : Chooser w V) (seen : Array (Visit w V)) (events : Array TableEvent)
    (h : c.On m) (ha : c.At m e) (hr : m.Represents s) :
    ∃ s', Asked choose c m s seen e s' (visit choose ⟨c, m, seen, events⟩ e) := by
  unfold visit
  simp only
  by_cases hc : choose seen e = true
  · rw [if_pos hc]
    have hl := h.leaves ha hr
    refine ⟨s.release e.key, hl.on, hl.represents, hl.rest_perm, hl.nullVisited_eq, ?_, ?_⟩
    · intro es
      simp only [Contents.sift, if_pos hc, hl.answer_eq]
    · exact Contents.nullEntries_release
  · rw [if_neg hc]
    refine ⟨s, h, hr, .refl _, rfl, ?_, fun _ => rfl⟩
    intro es
    simp only [Contents.sift, if_neg hc]

/-- A walk that asked about the entries in order and has nothing left to ask about. -/
structure Sifted (choose : Chooser w V) (s : Contents w V) (seen : Array (Visit w V))
    (es : List (Entry w V)) (k : Walk w V) : Prop where
  visits_eq : k.visits = (s.sift choose seen es).1
  represents : k.map.Represents (s.sift choose seen es).2
  done : (k.walker.next k.map).1 = .error .exhausted

theorem run_done (h : c.On m) (hr : m.Represents s) (hrest : c.rest m = [])
    (hv : c.nullVisited = true) (limit : Nat) :
    Sifted choose s seen [] (run choose limit ⟨c, m, seen, events⟩).1 := by
  cases limit with
  | zero => exact ⟨rfl, hr, h.next_done hrest (Or.inl hv)⟩
  | succ limit =>
    have hn := h.nexts
    have hdone := h.next_done hrest (Or.inl hv)
    unfold run
    simp only
    generalize c.next m = outcome at hn hdone ⊢
    cases hn with
    | entry _ _ _ _ _ => cases hdone
    | null _ _ _ _ _ _ _ => cases hdone
    | exhausted hon _ _ hrest' _ hv' => exact ⟨rfl, hr, hon.next_done hrest' (Or.inl hv')⟩

theorem run_sifted (h : c.On m) (hr : m.Represents s) (hv : c.nullVisited = false) (limit : Nat)
    (hlimit : (c.rest m).length < limit) :
    ∃ es, es.Perm (c.rest m) ∧
      Sifted choose s seen (es ++ s.nullEntries) (run choose limit ⟨c, m, seen, events⟩).1 := by
  induction limit generalizing c m s seen events with
  | zero => exact absurd hlimit (Nat.not_lt_zero _)
  | succ limit ih =>
    have hn := h.nexts
    unfold run
    simp only
    generalize c.next m = outcome at hn ⊢
    cases hn with
    | @entry e c' hon hat hk hrest hv' =>
      obtain ⟨s', ha⟩ := visit_asked choose seen events hon hat hr
      have hlen : (c'.rest m).length < limit := by
        rw [hrest, List.length_cons] at hlimit
        exact Nat.lt_of_succ_lt_succ hlimit
      simp only
      generalize visit choose ⟨c', m, seen, events⟩ e = k at ha ⊢
      obtain ⟨walker, map, visits, events'⟩ := k
      obtain ⟨es, hes, hsift⟩ : ∃ es, es.Perm (walker.rest map) ∧
          Sifted choose s' visits (es ++ s'.nullEntries)
            (run choose limit ⟨walker, map, visits, events'⟩).1 := by
        apply ih ha.on ha.represents (ha.nullVisited_eq.trans (hv'.trans hv))
        rw [ha.rest_perm.length_eq]
        exact hlen
      refine ⟨e :: es, ?_, ?_⟩
      · rw [hrest]
        exact (hes.trans ha.rest_perm).cons e
      · rw [ha.nullEntries_eq hk] at hsift
        have heq := ha.sift_eq (es ++ s.nullEntries)
        rw [List.cons_append]
        exact ⟨heq ▸ hsift.visits_eq, heq ▸ hsift.represents, hsift.done⟩
    | @null v c' hon hc hrest hrest' _ hp hv' =>
      obtain ⟨s', ha⟩ := visit_asked choose seen events hon (.null hc hp) hr
      have hnull : s.nullEntries = [⟨.null w, v⟩] := by
        rw [Contents.nullEntries, ← hr.presentNull_eq, hp]
        rfl
      have heq := ha.sift_eq []
      simp only
      generalize visit choose ⟨c', m, seen, events⟩ ⟨.null w, v⟩ = k at ha heq ⊢
      obtain ⟨walker, map, visits, events'⟩ := k
      have hrestk : walker.rest map = [] := by
        have hp := ha.rest_perm
        rw [hrest'] at hp
        exact hp.eq_nil
      have hd : Sifted choose s' visits [] (run choose limit ⟨walker, map, visits, events'⟩).1 :=
        run_done ha.on ha.represents hrestk (ha.nullVisited_eq.trans hv') limit
      refine ⟨[], by rw [hrest], ?_⟩
      rw [hnull, List.nil_append]
      exact ⟨heq ▸ hd.visits_eq, heq ▸ hd.represents, hd.done⟩
    | @exhausted c' hon _ hrest hrest' hnull hv' =>
      refine ⟨[], by rw [hrest], ?_⟩
      have hp : s.nullEntries = [] := by
        rcases hnull with hvisited | habsent
        · rw [hv] at hvisited
          cases hvisited
        · rw [Contents.nullEntries, ← hr.presentNull_eq, habsent]
          rfl
      rw [hp, List.nil_append]
      exact ⟨rfl, hr, hon.next_done hrest' (Or.inl hv')⟩

end Walk

theorem CodeMap.Represents.retain_sifted {m : CodeMap w V} {s : Contents w V}
    (hr : m.Represents s) (keep : Walk.Chooser w V) :
    ∃ es, es.Perm m.table.entries ∧
      Walk.Sifted (fun seen e => !keep seen e) s #[] (es ++ s.nullEntries) (m.retain keep) := by
  have hperm := Walker.rest_walker_perm hr.valid
  have hlt : (m.walker.rest m).length < m.size + 1 := by
    rw [hperm.length_eq, ← hr.valid.table.counted]
    exact Nat.lt_succ_self _
  obtain ⟨es, hes, hsift⟩ : ∃ es, es.Perm (m.walker.rest m) ∧
      Walk.Sifted (fun seen e => !keep seen e) s #[] (es ++ s.nullEntries) (m.retain keep) :=
    Walk.run_sifted (Walker.on_walker hr.valid) hr rfl _ hlt
  exact ⟨es, hes.trans hperm, hsift⟩

end LexBase
