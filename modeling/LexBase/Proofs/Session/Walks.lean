import LexBase.Proofs.Session.Reachable
import LexBase.Proofs.Walker.Orderly

/-!
# A walk among other commands

A fresh walker is used with its map while other commands run on any maps of the session, as long
as none of them adds a non-null key to the map of the walk or removes one from it.
-/

namespace LexBase

set_option autoImplicit false

variable {w : Width} {V : Type} [BEq V]

namespace Session

/-- The points of a walk of walker `c` over map `i`, each with the trail up to there. -/
inductive Walks (s₀ : Session w V) (i c : Nat) : Session w V → Trail w V → Prop where
  | start : Walks s₀ i c s₀ ⟨[], false, none⟩
  | next {s : Session w V} {t t' : Trail w V} {r : Except WalkError (Entry w V)} :
      Walks s₀ i c s t → (s.perform i (.next c)).reply = .produced r → t.Extends r t' →
      Walks s₀ i c (s.perform i (.next c)).session t'
  | hasNext {s : Session w V} {t : Trail w V} :
      Walks s₀ i c s t → Walks s₀ i c (s.perform i (.hasNext c)).session t
  | remove {s : Session w V} {t : Trail w V} :
      Walks s₀ i c s t →
      Walks s₀ i c (s.perform i (.remove c)).session { t with latest := none }
  | other {s : Session w V} {t : Trail w V} {j : Nat} {k : Command w V} :
      Walks s₀ i c s t → k.uses c = false →
      (∀ m m', s.maps[i]? = some m → (s.perform j k).session.maps[i]? = some m' →
        m.SameKeys m') →
      Walks s₀ i c (s.perform j k).session t

variable {s s' : Session w V} {i c : Nat} {m : CodeMap w V} {keys : List (CodeUnit w)}
  {t : Trail w V}

structure Pair (s : Session w V) (i c : Nat) (walker : Walker w) (m : CodeMap w V) : Prop where
  walker_eq : s.walkers[c]? = some walker
  map_eq : s.maps[i]? = some m

namespace Pair

variable {walker : Walker w} (h : s.Pair i c walker m)
include h

theorem next_reply : (s.perform i (.next c)).reply = .produced (walker.next m).1 :=
  (withWalker_some h.walker_eq h.map_eq).1

theorem next : (s.perform i (.next c)).session.Pair i c (walker.next m).2 m := by
  have hlt := (List.getElem?_eq_some_iff.mp h.walker_eq).1
  constructor
  · rw [perform, (withWalker_some h.walker_eq h.map_eq).2]
    exact List.getElem?_set_self hlt
  · rw [perform, maps_withWalker h.walker_eq, h.map_eq, Option.map_some, if_pos rfl]

theorem remove_reply : (s.perform i (.remove c)).reply = .taken (walker.remove m).answer :=
  (withWalker_some h.walker_eq h.map_eq).1

theorem remove :
    (s.perform i (.remove c)).session.Pair i c (walker.remove m).walker (walker.remove m).map := by
  have hlt := (List.getElem?_eq_some_iff.mp h.walker_eq).1
  constructor
  · rw [perform, (withWalker_some h.walker_eq h.map_eq).2]
    exact List.getElem?_set_self hlt
  · rw [perform, maps_withWalker h.walker_eq, h.map_eq, Option.map_some, if_pos rfl]

end Pair

theorem pair_walker (hm : s.maps[i]? = some m) :
    (s.perform i .walker).session.Pair i s.walkers.length m.walker m := by
  rw [perform, hm, Option.map_some]
  exact ⟨List.getElem?_concat_length, hm⟩

theorem Walks.underway {s₀ : Session w V} {walker : Walker w} (hpair : s₀.Pair i c walker m)
    (hstart : walker.Underway m keys ⟨[], false, none⟩) (hw : Walks s₀ i c s t) :
    ∃ walker' m', s.Pair i c walker' m' ∧ walker'.Underway m' keys t := by
  induction hw with
  | start => exact ⟨walker, m, hpair, hstart⟩
  | @next s t t' r _ hreply hext ih =>
    obtain ⟨walker', m', hp, hu⟩ := ih
    obtain ⟨t'', hext', hu'⟩ := hu.next
    rw [hp.next_reply] at hreply
    obtain rfl := Reply.produced.inj hreply
    refine ⟨_, m', hp.next, ?_⟩
    generalize (walker'.next m').1 = r at hext hext'
    cases hext with
    | produced e =>
      cases hext'
      exact hu'
    | exhausted =>
      cases hext'
      exact hu'
  | @hasNext s t _ ih =>
    obtain ⟨walker', m', hp, hu⟩ := ih
    refine ⟨walker', m', ⟨walkers_perform hp.walker_eq rfl, ?_⟩, hu⟩
    rw [perform, hp.walker_eq]
    exact hp.map_eq
  | @remove s t _ ih =>
    obtain ⟨walker', m', hp, hu⟩ := ih
    exact ⟨_, _, hp.remove, hu.remove⟩
  | @other s t j k _ huses hkeys ih =>
    obtain ⟨walker', m', hp, hu⟩ := ih
    obtain ⟨m'', hm'', hb, _⟩ := (perform_follows s j k).old i m' hp.map_eq
    have hv := hu.on.valid
    refine ⟨walker', m'', ⟨walkers_perform hp.walker_eq huses, hm''⟩, ?_⟩
    exact hu.of_sameSlots (hb.valid hv) (hb.sameSlots hv (hkeys m' m'' hp.map_eq hm''))

/-- At every point of a walk that a fresh walker takes over a reachable map the walk is orderly. -/
theorem fresh_walk_orderly (h : s.Reachable) (hm : s.maps[i]? = some m)
    (hw : Walks (s.perform i .walker).session i s.walkers.length s' t) :
    ∃ keys, keys.Nodup ∧ keys.length = m.size ∧
      (∀ u, u ∈ keys ↔ u ≠ .null w ∧ m.contains u = true) ∧
      ∃ walker m', s'.Pair i s.walkers.length walker m' ∧ walker.Orderly m' keys t ∧
        (s'.perform i (.next s.walkers.length)).reply = .produced (walker.next m').1 ∧
        (s'.perform i (.remove s.walkers.length)).reply = .taken (walker.remove m').answer ∧
        (s'.perform i (.remove s.walkers.length)).session.maps[i]? =
          some (walker.remove m').map := by
  have hv := h.valid m (List.mem_of_getElem? hm)
  have hnonnull : ∀ u ∈ m.table.entries.map Entry.key, u ≠ .null w := by
    intro u hu
    obtain ⟨e, he, rfl⟩ := List.mem_map.mp hu
    exact hv.table.nonnull e he
  obtain ⟨walker, m', hp, hu⟩ := hw.underway (pair_walker hm) (Walker.underway_walker hv)
  refine ⟨m.table.entries.map Entry.key, hv.table.distinct, ?_, ?_, walker, m', hp, ?_,
    hp.next_reply, hp.remove_reply, hp.remove.map_eq⟩
  · rw [List.length_map, ← hv.table.counted]
    rfl
  · intro u
    constructor
    · intro hmem
      exact ⟨hnonnull u hmem, (hv.contains_iff (hnonnull u hmem)).mpr hmem⟩
    · intro hmem
      exact (hv.contains_iff hmem.1).mp hmem.2
  · exact hu.orderly hv.table.distinct hnonnull

/-- Two keys and the null key, with a walker that has produced a key and removed it. -/
def twoKeysAndNull : Session .byte Nat :=
  (Session.addMap ⟨[], []⟩ (.empty 0)).session.after
    [(0, .insert 7 70), (0, .insert 9 90), (0, .insert 0 5)]

def firstKeyRemoved : Session .byte Nat :=
  (twoKeysAndNull.perform 0 .walker).session.after [(0, .next 0), (0, .get 7), (0, .remove 0)]

theorem twoKeysAndNull_walk_orderly :
    ∃ keys walker m, keys.length = 2 ∧ firstKeyRemoved.Pair 0 0 walker m ∧ m.size = 1 ∧
      walker.Orderly m keys ⟨[⟨7, 70⟩], false, none⟩ := by
  have hreach : twoKeysAndNull.Reachable := .after (.addMap .start (.empty 0)) _
  have hsize : twoKeysAndNull.maps[0]?.map CodeMap.size = some 2 := by decide +kernel
  have hsize' : firstKeyRemoved.maps[0]?.map CodeMap.size = some 1 := by decide +kernel
  obtain ⟨m, hm, hn⟩ := Option.map_eq_some_iff.mp hsize
  have hnext : Walks (twoKeysAndNull.perform 0 .walker).session 0 0
      ((twoKeysAndNull.perform 0 .walker).session.perform 0 (.next 0)).session
      ⟨[⟨7, 70⟩], false, some 7⟩ :=
    .next .start rfl (.produced _)
  have hwalk : Walks (twoKeysAndNull.perform 0 .walker).session 0 0 firstKeyRemoved
      ⟨[⟨7, 70⟩], false, none⟩ := by
    refine .remove (.other (k := .get 7) (j := 0) hnext rfl ?_)
    intro n n' hold hnew
    obtain rfl := Option.some.inj (hold.symm.trans hnew)
    exact fun _ _ => rfl
  obtain ⟨keys, _, hlen, _, walker, m', hpair, horderly, _⟩ :=
    fresh_walk_orderly hreach hm hwalk
  refine ⟨keys, walker, m', hlen.trans hn, hpair, ?_, horderly⟩
  rw [hpair.map_eq, Option.map_some] at hsize'
  exact Option.some.inj hsize'

end Session

end LexBase
