import LexBase.Proofs.CodeMap.Turnover
import LexBase.Proofs.CodeMap.Views
import LexBase.Proofs.Walker.Orderly
import LexBase.Proofs.Walker.Outcome

/-!
# Retaining is filtering

A retain asks about each entry that is present once, the null key last, and the answer may depend on
all that was asked before. The visits record the answers: an entry is kept or it is removed. What the
map holds in the end are the entries kept, and nothing else about it has changed.
-/

namespace LexBase

set_option autoImplicit false

variable {w : Width} {V : Type}

namespace Walk

/-- Visits that follow a predicate: an entry is judged by the visits before it, and the removal of a
rejected one returns its value. -/
inductive Judged (keep : Chooser w V) : Array (Visit w V) → Prop where
  | start : Judged keep #[]
  | kept {seen : Array (Visit w V)} {e : Entry w V} :
      Judged keep seen → keep seen e = true → Judged keep (seen.push ⟨e, none⟩)
  | rejected {seen : Array (Visit w V)} {e : Entry w V} :
      Judged keep seen → keep seen e = false →
      Judged keep (seen.push ⟨e, some (.ok e.value)⟩)

section Visits

variable (visits : Array (Visit w V)) (e : Entry w V)

def asked : List (Entry w V) := visits.toList.map Visit.entry

def kept : List (Entry w V) := (visits.toList.filter fun v => v.removal.isNone).map Visit.entry

def rejected : List (Entry w V) := (visits.toList.filter fun v => v.removal.isSome).map Visit.entry

def rejectedKeys : List (CodeUnit w) := (rejected visits).map Entry.key

theorem asked_push (v : Visit w V) : asked (visits.push v) = asked visits ++ [v.entry] := by
  simp [asked]

theorem rejectedKeys_push_none : rejectedKeys (visits.push ⟨e, none⟩) = rejectedKeys visits := by
  simp [rejectedKeys, rejected]

theorem rejectedKeys_push_some (r : Except WalkError V) :
    rejectedKeys (visits.push ⟨e, some r⟩) = rejectedKeys visits ++ [e.key] := by
  simp [rejectedKeys, rejected]

theorem kept_append_rejected_perm : (kept visits ++ rejected visits).Perm (asked visits) := by
  have hp := (List.filter_append_perm (fun v => v.removal.isNone) visits.toList).map Visit.entry
  simpa [kept, rejected, asked] using hp

theorem mem_kept_iff (hd : ((asked visits).map Entry.key).Nodup) :
    e ∈ kept visits ↔ e ∈ asked visits ∧ e.key ∉ rejectedKeys visits := by
  have hp := kept_append_rejected_perm visits
  have hall := ((hp.map Entry.key).nodup_iff.mpr hd)
  rw [List.map_append, List.nodup_append] at hall
  rw [← hp.mem_iff, List.mem_append]
  constructor
  · intro he
    refine ⟨Or.inl he, ?_⟩
    intro hmem
    exact hall.2.2 e.key (List.mem_map_of_mem he) e.key hmem rfl
  · rintro ⟨he | he, hout⟩
    · exact he
    · exact absurd (List.mem_map_of_mem he) hout

end Visits

end Walk

namespace Contents

variable {keep choose : Walk.Chooser w V} {s s₀ : Contents w V} {seen : Array (Visit w V)}

theorem sift_judged (es : List (Entry w V)) (h : Walk.Judged keep seen) :
    Walk.Judged keep (s.sift (fun seen e => !keep seen e) seen es).1 := by
  induction es generalizing s seen with
  | nil => exact h
  | cons e es ih =>
    unfold sift
    cases hk : keep seen e with
    | true => exact ih (h.kept hk)
    | false => exact ih (h.rejected hk)

theorem asked_sift (es : List (Entry w V)) :
    Walk.asked (s.sift choose seen es).1 = Walk.asked seen ++ es := by
  induction es generalizing s seen with
  | nil => exact (List.append_nil _).symm
  | cons e es ih =>
    unfold sift
    split
    · rw [ih, Walk.asked_push, List.append_assoc, List.singleton_append]
    · rw [ih, Walk.asked_push, List.append_assoc, List.singleton_append]

/-- These contents are the others without the keys that were rejected. -/
def Without (s s₀ : Contents w V) (keys : List (CodeUnit w)) : Prop :=
  s.default = s₀.default ∧ ∀ u, s.stored u = if u ∈ keys then none else s₀.stored u

theorem without_nil (s : Contents w V) : s.Without s [] :=
  ⟨rfl, fun _ => (if_neg List.not_mem_nil).symm⟩

theorem Without.release {keys : List (CodeUnit w)} (h : s.Without s₀ keys) (key : CodeUnit w) :
    (s.release key).Without s₀ (keys ++ [key]) := by
  constructor
  · rw [← h.1]
    unfold Contents.release
    split <;> rfl
  · intro u
    rw [stored_release, h.2]
    by_cases hu : u = key
    · simp [hu]
    · simp [hu]

theorem Without.sift (es : List (Entry w V)) (h : s.Without s₀ (Walk.rejectedKeys seen)) :
    (s.sift choose seen es).2.Without s₀ (Walk.rejectedKeys (s.sift choose seen es).1) := by
  induction es generalizing s seen with
  | nil => exact h
  | cons e es ih =>
    unfold Contents.sift
    split
    · apply ih
      rw [Walk.rejectedKeys_push_some]
      exact h.release e.key
    · apply ih
      rw [Walk.rejectedKeys_push_none]
      exact h

theorem Without.present [BEq V] {keys : List (CodeUnit w)} (h : s.Without s₀ keys)
    (u : CodeUnit w) : s.present u = if u ∈ keys then none else s₀.present u := by
  have hu := h.2 u
  unfold Contents.present presentNull
  unfold stored at hu
  rw [h.1]
  split at hu
  · next hnull =>
    rw [if_pos hnull, if_pos hnull, hu]
    split <;> rfl
  · next hnull =>
    rw [if_neg hnull, if_neg hnull, hu]

end Contents

variable [BEq V]

/-- A walker that reports a map that differs would report it again. -/
theorem Walker.next_error {c c' : Walker w} {m : CodeMap w V} {err : WalkError}
    (h : c.next m = (.error err, c')) (hdone : (c'.next m).1 = .error .exhausted) :
    err = .exhausted := by
  have hp := c.produces m
  rw [h] at hp
  cases hp with
  | differs hdiff =>
    rw [h] at hdone
    exact Except.error.inj hdone
  | exhausted _ => rfl

namespace Walk

/-- A walk that has come to its end ends there whatever the bound on its visits is. -/
theorem run_of_done {choose : Chooser w V} {limit : Nat} {k : Walk w V}
    (hdone : ((run choose limit k).1.walker.next (run choose limit k).1.map).1 =
      .error .exhausted) :
    ∃ c, ∀ extra, run choose (limit + 1 + extra) k =
      ({ (run choose limit k).1 with walker := c }, some .exhausted) := by
  induction limit generalizing k with
  | zero =>
    refine ⟨(k.walker.next k.map).2, ?_⟩
    intro extra
    rw [Nat.zero_add, Nat.add_comm 1 extra]
    exact run_of_error (Prod.ext hdone rfl) extra
  | succ limit ih =>
    have hcomm : ∀ extra, limit + 1 + 1 + extra = limit + 1 + extra + 1 := by omega
    rcases hnext : k.walker.next k.map with ⟨err | e, c⟩
    · rw [run_of_error hnext] at hdone ⊢
      obtain rfl : err = .exhausted := Walker.next_error hnext hdone
      refine ⟨c, ?_⟩
      intro extra
      rw [hcomm, run_of_error hnext]
    · rw [run_of_ok hnext] at hdone ⊢
      simpa only [hcomm, run_of_ok hnext] using ih hdone

end Walk

namespace CodeMap

variable {m : CodeMap w V} {es : List (Entry w V)}

theorem Valid.filter_toList (h : m.Valid) :
    m.toList.filter (fun e => !e.key.isNull) = m.table.entries := by
  change (m.table.entries ++ nullItems m.presentNull).filter _ = _
  rw [List.filter_append]
  have hslots : m.table.entries.filter (fun e => !e.key.isNull) = m.table.entries := by
    rw [List.filter_eq_self]
    intro e he
    rw [Bool.not_eq_true', ← Bool.not_eq_true, CodeUnit.isNull_iff]
    exact h.table.nonnull e he
  have hnull : (nullItems m.presentNull : List (Entry w V)).filter (fun e => !e.key.isNull) = [] := by
    rw [List.filter_eq_nil_iff]
    intro e he
    simpa using ((mem_nullItems _ e).mp he).1
  rw [hslots, hnull, List.append_nil]

/-- What a retain does to a map: the walk `k` is the filter of the map by the predicate. -/
structure Filters (m : CodeMap w V) (keep : Walk.Chooser w V) (k : Walk w V) : Prop where
  judged : Walk.Judged keep k.visits
  asked_once : ((Walk.asked k.visits).map Entry.key).Nodup
  asked_iff : ∀ e, e ∈ Walk.asked k.visits ↔ m.Holds e
  null_last : ∀ es e es', Walk.asked k.visits = es ++ e :: es' → e.key = .null w → es' = []
  kept_iff : ∀ e, e ∈ Walk.kept k.visits ↔ k.map.Holds e
  /-- A rejected key is gone, the null key too; the slot of any other key is as it was. -/
  stored_eq : ∀ u, k.map.stored? u = if u ∈ Walk.rejectedKeys k.visits then none else m.stored? u
  size_add : k.map.size + ((Walk.rejectedKeys k.visits).filter fun u => !u.isNull).length = m.size
  capacity_eq : k.map.capacity = m.capacity
  default_eq : k.map.default = m.default
  /-- The walk ends by itself: a higher bound on the visits changes nothing. -/
  ends : ∃ c, ∀ extra, m.walker.walk m (fun seen e => !keep seen e) (m.size + 2 + extra) =
    ({ k with walker := c }, some .exhausted)

theorem Valid.perm_toList (h : m.Valid) (hd : es.Nodup) (hmem : ∀ e, e ∈ es ↔ m.Holds e) :
    es.Perm m.toList := by
  apply (List.perm_ext_iff_of_nodup hd h.toList_distinct.of_map).mpr
  intro e
  rw [hmem, h.mem_toList_iff]

theorem Valid.size_add (h : m.Valid) {m' : CodeMap w V} (h' : m'.Valid)
    {visits : Array (Visit w V)} (hd : ((Walk.asked visits).map Entry.key).Nodup)
    (hasked : ∀ e, e ∈ Walk.asked visits ↔ m.Holds e)
    (hkept : ∀ e, e ∈ Walk.kept visits ↔ m'.Holds e) :
    m'.size + ((Walk.rejectedKeys visits).filter fun u => !u.isNull).length = m.size := by
  have hsplit := Walk.kept_append_rejected_perm visits
  have hnodup := hsplit.nodup_iff.mpr hd.of_map
  have hp : (m'.toList ++ Walk.rejected visits).Perm m.toList :=
    ((h'.perm_toList hnodup.of_append_left hkept).symm.append_right _).trans
      (hsplit.trans (h.perm_toList hd.of_map hasked))
  have hlen := (hp.filter fun e => !e.key.isNull).length_eq
  rw [List.filter_append, h.filter_toList, h'.filter_toList, List.length_append,
    ← h.table.counted, ← h'.table.counted] at hlen
  rw [Walk.rejectedKeys, List.filter_map, List.length_map]
  exact hlen

theorem Valid.null_last (h : m.Valid) (hes : es.Perm m.table.entries) {fs fs' : List (Entry w V)}
    {e : Entry w V} (hcat : es ++ m.contents.nullEntries = fs ++ e :: fs') (hk : e.key = .null w) :
    fs' = [] := by
  have hout : e ∉ es := fun he => h.table.nonnull e (hes.mem_iff.mp he) hk
  change es ++ nullItems m.presentNull = _ at hcat
  generalize m.presentNull = null at hcat
  cases null with
  | none =>
    have hall : es = fs ++ e :: fs' := (List.append_nil es).symm.trans hcat
    rw [hall] at hout
    exact absurd (List.mem_append_right _ List.mem_cons_self) hout
  | some v =>
    rcases eq_last_or_mem hcat with ⟨_, hnil⟩ | he
    · exact hnil
    · exact absurd he hout

theorem Valid.retain_filters (h : m.Valid) (keep : Walk.Chooser w V) :
    m.Filters keep (m.retain keep) := by
  obtain ⟨es, hes, hsift⟩ := h.represents.retain_sifted keep
  have hsheds : m.Sheds (m.retain keep).map := Walk.run_sheds _ _ .refl
  have hv := hsheds.valid h
  have hends : ∃ c, ∀ extra, m.walker.walk m (fun seen e => !keep seen e) (m.size + 2 + extra) =
      ({ m.retain keep with walker := c }, some .exhausted) := Walk.run_of_done hsift.done
  generalize m.retain keep = k at hsift hsheds hv hends ⊢
  have hperm : (es ++ m.contents.nullEntries).Perm m.toList := hes.append_right _
  have hasked : Walk.asked k.visits = es ++ m.contents.nullEntries := by
    rw [hsift.visits_eq, Contents.asked_sift]
    rfl
  have honce : ((Walk.asked k.visits).map Entry.key).Nodup := by
    rw [hasked]
    exact (hperm.map Entry.key).nodup_iff.mpr h.toList_distinct
  have hwithout : (m.contents.sift (fun seen e => !keep seen e) #[]
      (es ++ m.contents.nullEntries)).2.Without m.contents (Walk.rejectedKeys k.visits) := by
    rw [hsift.visits_eq]
    exact Contents.Without.sift _ m.contents.without_nil
  have hholds : ∀ e, e ∈ Walk.asked k.visits ↔ m.Holds e := by
    intro e
    rw [hasked, hperm.mem_iff, h.mem_toList_iff]
  have hkept : ∀ e, e ∈ Walk.kept k.visits ↔ k.map.Holds e := by
    intro e
    rw [Walk.mem_kept_iff _ _ honce, hholds, h.represents.holds_iff, hsift.represents.holds_iff,
      hwithout.present]
    split <;> simp [*]
  refine ⟨?_, honce, hholds, ?_, hkept, ?_, h.size_add hv honce hholds hkept,
    hsheds.capacity h, ?_, hends⟩
  · rw [hsift.visits_eq]
    exact Contents.sift_judged _ .start
  · intro fs e fs' hcat
    rw [hasked] at hcat
    exact h.null_last hes hcat
  · intro u
    rw [hsift.represents.stored?_eq, hwithout.2, h.represents.stored?_eq]
  · rw [hsift.represents.default_eq, hwithout.1]
    rfl

end CodeMap

namespace Session

variable {s : Session w V} {m : CodeMap w V}

/-- On every map of a reachable session a retain is a filter, whatever its predicate looks at. -/
theorem reachable_retain_filters (h : s.Reachable) (hm : m ∈ s.maps) (keep : Walk.Chooser w V) :
    m.Filters keep (m.retain keep) :=
  (h.valid m hm).retain_filters keep

/-- Four keys with two homes, and the null key. -/
def sharedHomes : Session .byte Nat :=
  (Session.addMap ⟨[], []⟩ (.empty 0)).session.after
    [(0, .insert 7 1), (0, .insert 11 2), (0, .insert 4 3), (0, .insert 15 4), (0, .insert 0 5)]

/-- Rejects the first entry and every other one after it. -/
def everyOther : Walk.Chooser .byte Nat := fun seen _ => seen.size % 2 == 1

theorem sharedHomes_retain_filters : ∃ m, sharedHomes.maps[0]? = some m ∧
    (Walk.asked (m.retain everyOther).visits).map Entry.key = [7, 11, 4, 15, 0] ∧
    (m.retain everyOther).map.toList.map Entry.key = [11, 15] ∧
    m.Filters everyOther (m.retain everyOther) := by
  have hreach : sharedHomes.Reachable := .after (.addMap .start (.empty 0)) _
  have hkeys : sharedHomes.maps[0]?.map (fun m =>
      ((Walk.asked (m.retain everyOther).visits).map Entry.key,
        (m.retain everyOther).map.toList.map Entry.key)) = some ([7, 11, 4, 15, 0], [11, 15]) := by
    decide +kernel
  obtain ⟨m, hm, hboth⟩ := Option.map_eq_some_iff.mp hkeys
  obtain ⟨hasked, hkept⟩ := Prod.mk.inj hboth
  have hfilters := reachable_retain_filters hreach (List.mem_of_getElem? hm) everyOther
  exact ⟨m, hm, hasked, hkept, hfilters⟩

end Session

end LexBase
