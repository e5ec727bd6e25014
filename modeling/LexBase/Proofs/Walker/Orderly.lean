import LexBase.Proofs.Walker.Underway

/-!
# Walks are orderly

What the trail of a walk says about the walk, at every point of it: no key is produced twice, the
null key comes last if at all, and the outcome of the next call is known from the trail and the
map.
-/

namespace LexBase

set_option autoImplicit false

variable {w : Width} {V : Type}

theorem eq_last_or_mem {α : Type} {l fs fs' : List α} {x e : α}
    (h : l ++ [x] = fs ++ e :: fs') : l = fs ∧ fs' = [] ∨ e ∈ l := by
  rcases List.eq_nil_or_concat fs' with rfl | ⟨fs'', y, rfl⟩
  · exact Or.inl ⟨(List.append_inj' h rfl).1, rfl⟩
  · have hcat : l ++ [x] = (fs ++ e :: fs'') ++ [y] := by
      rw [h]
      simp
    apply Or.inr
    rw [(List.append_inj' hcat rfl).1]
    exact List.mem_append_right _ List.mem_cons_self

namespace Trail

variable {t : Trail w V} {ahead keys : List (CodeUnit w)} {es nulls : List (Entry w V)}
  {u : CodeUnit w}

/-- The entries from the table, and after them the null key, once nothing is ahead. -/
structure Divides (t : Trail w V) (ahead keys : List (CodeUnit w)) (es nulls : List (Entry w V)) :
    Prop where
  produced_eq : t.produced = es ++ nulls
  perm : (es.map Entry.key ++ ahead).Perm keys
  null_eq : nulls = [] ∨ ∃ v, nulls = [⟨.null w, v⟩] ∧ ahead = []

namespace Divides

variable (h : t.Divides ahead keys es nulls)
include h

theorem keys_eq : t.keys = es.map Entry.key ++ nulls.map Entry.key := by
  unfold Trail.keys
  rw [h.produced_eq, List.map_append]

theorem mem_of_slot (hu : u ∈ es.map Entry.key) : u ∈ keys :=
  h.perm.mem_iff.mp (List.mem_append_left _ hu)

theorem null_of_mem (hu : u ∈ nulls.map Entry.key) : u = .null w := by
  rcases h.null_eq with rfl | ⟨v, rfl, _⟩
  · exact absurd hu List.not_mem_nil
  · exact List.mem_singleton.mp hu

theorem known (hu : u ∈ t.keys) : u = .null w ∨ u ∈ keys := by
  rw [h.keys_eq] at hu
  rcases List.mem_append.mp hu with hslot | hnull
  · exact Or.inr (h.mem_of_slot hslot)
  · exact Or.inl (h.null_of_mem hnull)

theorem mem_ahead (hu : u ∈ keys) (hout : u ∉ t.keys) : u ∈ ahead := by
  rw [h.keys_eq] at hout
  rcases List.mem_append.mp (h.perm.mem_iff.mpr hu) with hslot | hahead
  · exact absurd (List.mem_append_left _ hslot) hout
  · exact hahead

theorem complete (hnil : ahead = []) (hu : u ∈ keys) : u ∈ t.keys := by
  by_contra hout
  have hahead := h.mem_ahead hu hout
  rw [hnil] at hahead
  exact absurd hahead List.not_mem_nil

theorem perm_slots (hnil : ahead = []) : (es.map Entry.key).Perm keys := by
  have hp := h.perm
  rwa [hnil, List.append_nil] at hp

theorem of_ahead (hnodup : keys.Nodup) (hu : u ∈ ahead) : u ∈ keys ∧ u ∉ t.keys := by
  have hall := h.perm.nodup_iff.mpr hnodup
  refine ⟨h.perm.mem_iff.mp (List.mem_append_right _ hu), ?_⟩
  rw [h.keys_eq, List.mem_append]
  intro hor
  rcases hor with hslot | hnull
  · exact List.disjoint_of_nodup_append hall hslot hu
  · rcases h.null_eq with rfl | ⟨v, rfl, hnil⟩
    · exact absurd hnull List.not_mem_nil
    · rw [hnil] at hu
      exact absurd hu List.not_mem_nil

section Null

variable (hnonnull : ∀ u ∈ keys, u ≠ .null w)
include hnonnull

theorem null_not_slot : CodeUnit.null w ∉ es.map Entry.key := by
  intro hmem
  exact hnonnull _ (h.mem_of_slot hmem) rfl

theorem distinct (hnodup : keys.Nodup) : t.keys.Nodup := by
  rw [h.keys_eq, List.nodup_append]
  refine ⟨(h.perm.nodup_iff.mpr hnodup).of_append_left, ?_, ?_⟩
  · rcases h.null_eq with rfl | ⟨v, rfl, _⟩
    · exact List.nodup_nil
    · exact List.nodup_singleton _
  · intro a ha b hb hab
    rw [hab, h.null_of_mem hb] at ha
    exact h.null_not_slot hnonnull ha

theorem null_last {fs fs' : List (Entry w V)} {e : Entry w V} (heq : t.produced = fs ++ e :: fs')
    (hk : e.key = .null w) : fs' = [] ∧ (fs.map Entry.key).Perm keys := by
  have hout : e ∉ es := by
    intro hmem
    exact h.null_not_slot hnonnull (List.mem_map.mpr ⟨e, hmem, hk⟩)
  rw [h.produced_eq] at heq
  rcases h.null_eq with rfl | ⟨v, rfl, hnil⟩
  · refine absurd ?_ hout
    rw [List.append_nil] at heq
    rw [heq]
    exact List.mem_append_right _ List.mem_cons_self
  · rcases eq_last_or_mem heq with ⟨rfl, hlast⟩ | hmem
    · exact ⟨hlast, h.perm_slots hnil⟩
    · exact absurd hmem hout

theorem count (hnil : ahead = []) :
    t.produced.length = keys.length + if CodeUnit.null w ∈ t.keys then 1 else 0 := by
  have hlen := (h.perm_slots hnil).length_eq
  have hout := h.null_not_slot hnonnull
  rw [List.length_map] at hlen
  rw [h.keys_eq, h.produced_eq, List.length_append, hlen]
  rcases h.null_eq with rfl | ⟨v, rfl, _⟩
  · simp [hout]
  · simp

end Null

end Divides

end Trail

namespace Walker

variable [BEq V] {c : Walker w} {m : CodeMap w V} {keys : List (CodeUnit w)} {t : Trail w V}

/-- A walk that began with the given non-null keys, seen from a point of it. -/
structure Orderly (c : Walker w) (m : CodeMap w V) (keys : List (CodeUnit w)) (t : Trail w V) :
    Prop where
  distinct : t.keys.Nodup
  known : ∀ u ∈ t.keys, u = .null w ∨ u ∈ keys
  null_last : ∀ es e es', t.produced = es ++ e :: es' → e.key = .null w →
    es' = [] ∧ (es.map Entry.key).Perm keys
  complete : t.ended = true → ∀ u ∈ keys, u ∈ t.keys
  count : t.ended = true →
    t.produced.length = keys.length + if CodeUnit.null w ∈ t.keys then 1 else 0
  next_pending : (∃ u ∈ keys, u ∉ t.keys) →
    ∃ e, (c.next m).1 = .ok e ∧ e.key ∈ keys ∧ e.key ∉ t.keys ∧
      m.stored? e.key = some e.value
  next_null : (∀ u ∈ keys, u ∈ t.keys) → t.ended = false → CodeUnit.null w ∉ t.keys →
    (c.next m).1 = m.presentNull.elim (.error .exhausted) fun v => .ok ⟨.null w, v⟩
  next_over : t.ended = true ∨ CodeUnit.null w ∈ t.keys → (c.next m).1 = .error .exhausted
  removal : ∀ u, t.latest = some u → u ≠ .null w →
    ∃ v, (c.remove m).answer = .ok v ∧ m.stored? u = some v ∧
      ∀ k, (c.remove m).map.stored? k = if k = u then none else m.stored? k

theorem stored?_of_at (h : c.On m) {e : Entry w V} (ha : c.At m e) (hk : e.key ≠ .null w) :
    m.stored? e.key = some e.value := by
  have hp := present_of_at h.valid.represents ha
  rw [h.valid.represents.stored?_eq]
  unfold Contents.present at hp
  unfold Contents.stored
  rw [if_neg hk] at hp ⊢
  exact hp

theorem On.removal (h : c.On m) {e : Entry w V} (ha : c.At m e) (hk : e.key ≠ .null w) :
    ∃ v, (c.remove m).answer = .ok v ∧ m.stored? e.key = some v ∧
      ∀ k, (c.remove m).map.stored? k = if k = e.key then none else m.stored? k := by
  have hl := h.leaves ha h.valid.represents
  refine ⟨e.value, hl.answer_eq, stored?_of_at h ha hk, ?_⟩
  intro k
  rw [hl.represents.stored?_eq, Contents.stored_release, h.valid.represents.stored?_eq]

namespace Underway

theorem divides (hu : c.Underway m keys t) :
    ∃ es nulls, t.Divides ((c.rest m).map Entry.key) keys es nulls := by
  cases hu with
  | @inside es _ _ hp _ _ => exact ⟨es, [], (List.append_nil es).symm, hp, Or.inl rfl⟩
  | @past es nulls _ _ _ hp hrest _ hnulls _ =>
    rw [hrest]
    refine ⟨es, nulls, rfl, by simpa using hp, ?_⟩
    rcases hnulls with ⟨_, hnil⟩ | ⟨v, hv⟩
    · exact Or.inl hnil
    · exact Or.inr ⟨v, hv, rfl⟩

/-- The null key has been asked for once the walk has met its end or produced the null key. -/
theorem nullVisited_iff (hnonnull : ∀ u ∈ keys, u ≠ .null w) (hu : c.Underway m keys t) :
    c.nullVisited = true ↔ t.ended = true ∨ CodeUnit.null w ∈ t.keys := by
  cases hu with
  | @inside es _ _ hp hv _ =>
    rw [hv]
    constructor
    · intro hfalse
      cases hfalse
    · intro hor
      rcases hor with hended | hmem
      · cases hended
      · exact absurd rfl (hnonnull _ (hp.mem_iff.mp (List.mem_append_left _ hmem)))
  | @past es nulls ended _ _ _ _ hv hnulls _ =>
    rw [hv]
    refine ⟨fun _ => ?_, fun _ => rfl⟩
    rcases hnulls with ⟨hended, _⟩ | ⟨v, rfl⟩
    · exact Or.inl hended
    · refine Or.inr (List.mem_map.mpr ⟨⟨.null w, v⟩, ?_, rfl⟩)
      exact List.mem_append_right _ List.mem_cons_self

theorem rest_nil (hu : c.Underway m keys t) (hv : c.nullVisited = true) : c.rest m = [] := by
  cases hu with
  | inside _ _ hfalse _ =>
    rw [hv] at hfalse
    cases hfalse
  | past _ _ hrest _ _ _ => exact hrest

theorem stands (hu : c.Underway m keys t) {u : CodeUnit w} (hlatest : t.latest = some u)
    (hk : u ≠ .null w) : ∃ e, c.At m e ∧ e.key = u := by
  cases hu with
  | inside _ _ _ hst =>
    cases hst with
    | nowhere _ => cases hlatest
    | @entry e hat _ => exact ⟨e, hat, Option.some.inj hlatest⟩
  | past _ _ _ _ _ hst =>
    rcases hst with ⟨rfl, _⟩ | ⟨rfl, _⟩
    · cases hlatest
    · exact absurd (Option.some.inj hlatest).symm hk

theorem next_pending (hnodup : keys.Nodup) (hu : c.Underway m keys t)
    (hpending : ∃ u ∈ keys, u ∉ t.keys) :
    ∃ e, (c.next m).1 = .ok e ∧ e.key ∈ keys ∧ e.key ∉ t.keys ∧
      m.stored? e.key = some e.value := by
  obtain ⟨u, hmem, hout⟩ := hpending
  obtain ⟨es, nulls, hd⟩ := hu.divides
  have hahead := hd.mem_ahead hmem hout
  have hn := hu.on.nexts
  generalize c.next m = outcome at hn ⊢
  cases hn with
  | @entry e c' hon hat hk hcons _ =>
    have hhead : e.key ∈ (c.rest m).map Entry.key := by
      rw [hcons]
      exact List.mem_cons_self
    obtain ⟨hkey, hfresh⟩ := hd.of_ahead hnodup hhead
    exact ⟨e, rfl, hkey, hfresh, stored?_of_at hon hat hk⟩
  | null _ _ hnil _ _ _ _ =>
    rw [hnil] at hahead
    exact absurd hahead List.not_mem_nil
  | exhausted _ _ hnil _ _ _ =>
    rw [hnil] at hahead
    exact absurd hahead List.not_mem_nil

theorem next_null (hnodup : keys.Nodup) (hu : c.Underway m keys t)
    (hall : ∀ u ∈ keys, u ∈ t.keys) (hv : c.nullVisited = false) :
    (c.next m).1 = m.presentNull.elim (.error .exhausted) fun v => .ok ⟨.null w, v⟩ := by
  obtain ⟨es, nulls, hd⟩ := hu.divides
  have hn := hu.on.nexts
  generalize c.next m = outcome at hn ⊢
  cases hn with
  | @entry e _ _ _ _ hcons _ =>
    have hhead : e.key ∈ (c.rest m).map Entry.key := by
      rw [hcons]
      exact List.mem_cons_self
    obtain ⟨hkey, hfresh⟩ := hd.of_ahead hnodup hhead
    exact absurd (hall _ hkey) hfresh
  | null _ _ _ _ _ hpresent _ => rw [hpresent, Option.elim_some]
  | exhausted _ _ _ _ hor _ =>
    rcases hor with hvisited | habsent
    · rw [hv] at hvisited
      cases hvisited
    · rw [habsent, Option.elim_none]

theorem orderly (hnodup : keys.Nodup) (hnonnull : ∀ u ∈ keys, u ≠ .null w)
    (hu : c.Underway m keys t) : c.Orderly m keys t := by
  obtain ⟨es, nulls, hd⟩ := hu.divides
  have hiff := hu.nullVisited_iff hnonnull
  have hahead : t.ended = true → (c.rest m).map Entry.key = [] := by
    intro hended
    rw [hu.rest_nil (hiff.mpr (Or.inl hended)), List.map_nil]
  constructor
  · exact hd.distinct hnonnull hnodup
  · intro u
    exact hd.known
  · intro fs e fs'
    exact hd.null_last hnonnull
  · intro hended u
    exact hd.complete (hahead hended)
  · intro hended
    exact hd.count hnonnull (hahead hended)
  · exact hu.next_pending hnodup
  · intro hall hended hout
    apply hu.next_null hnodup hall
    rw [Bool.eq_false_iff, ne_eq, hiff]
    intro hor
    rcases hor with htrue | hmem
    · rw [hended] at htrue
      cases htrue
    · exact hout hmem
  · intro hor
    have hv := hiff.mpr hor
    exact hu.on.next_done (hu.rest_nil hv) (Or.inl hv)
  · intro u hlatest hk
    obtain ⟨e, hat, rfl⟩ := hu.stands hlatest hk
    exact hu.on.removal hat hk

end Underway

end Walker

end LexBase
