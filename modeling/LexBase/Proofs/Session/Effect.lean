import LexBase.Proofs.CodeMap.Evolution
import LexBase.Session

/-!
# What a command does to a session

A command works on the map at its index and leaves the other maps alone; it adds a map or a walker
at the end at most. Only the calls of a walker change that walker.
-/

namespace LexBase

set_option autoImplicit false

namespace Session

variable {w : Width} {V : Type} {s : Session w V} {i j c d : Nat}

section UpdateAt

variable {α β : Type}

theorem updateAt_fst (f : α → β × α) (l : List α) (i : Nat) :
    (updateAt f l i).1 = (l[i]?).map fun a => (f a).1 := by
  induction l generalizing i with
  | nil => simp [updateAt]
  | cons a as ih =>
    cases i with
    | zero => simp [updateAt]
    | succ i => simpa [updateAt] using ih i

theorem getElem?_updateAt (f : α → β × α) (l : List α) (i j : Nat) :
    (updateAt f l i).2[j]? = (l[j]?).map fun a => if i = j then (f a).2 else a := by
  induction l generalizing i j with
  | nil => simp [updateAt]
  | cons a as ih =>
    cases i with
    | zero => cases j <;> simp [updateAt]
    | succ i => cases j <;> simp [updateAt, ih]

theorem updateAt_eq_self (f : α → β × α) {l : List α} {i : Nat} {a : α} (hi : l[i]? = some a)
    (hf : (f a).2 = a) : (updateAt f l i).2 = l := by
  apply List.ext_getElem?
  intro j
  rw [getElem?_updateAt]
  by_cases hij : i = j
  · subst hij
    rw [hi, Option.map_some, if_pos rfl, hf]
  · simp [hij]

end UpdateAt

theorem maps_onMap (f : CodeMap w V → (Reply w V × Array TableEvent) × CodeMap w V) :
    (s.onMap i f).session.maps[j]? = (s.maps[j]?).map fun m => if i = j then (f m).2 else m :=
  getElem?_updateAt f s.maps i j

theorem maps_addWalker (o : Option (Walker w)) : (s.addWalker o).session.maps = s.maps := by
  cases o <;> rfl

theorem walkers_addWalker {walker : Walker w} (hc : s.walkers[c]? = some walker)
    (o : Option (Walker w)) : (s.addWalker o).session.walkers[c]? = some walker := by
  cases o with
  | none => exact hc
  | some d =>
    have hlt := (List.getElem?_eq_some_iff.mp hc).1
    rw [addWalker, List.getElem?_append_left hlt, hc]

section WithWalker

variable {f : Walker w → CodeMap w V → Reply w V × Walker w × CodeMap w V × Array TableEvent}
  {walker : Walker w}

theorem withWalker_none (hc : s.walkers[c]? = none) :
    s.withWalker c i f = ⟨.missing, s, #[]⟩ := by
  unfold withWalker
  rw [hc]

theorem maps_withWalker (hc : s.walkers[c]? = some walker) :
    (s.withWalker c i f).session.maps[j]? =
      (s.maps[j]?).map fun m => if i = j then (f walker m).2.2.1 else m := by
  unfold withWalker
  rw [hc]
  simp only
  rw [← getElem?_updateAt (fun m => (((f walker m).1, (f walker m).2.1, (f walker m).2.2.2),
    (f walker m).2.2.1)) s.maps i j]
  split <;> rfl

theorem withWalker_some {m : CodeMap w V} (hc : s.walkers[c]? = some walker)
    (hm : s.maps[i]? = some m) :
    (s.withWalker c i f).reply = (f walker m).1 ∧
      (s.withWalker c i f).session.walkers = s.walkers.set c (f walker m).2.1 := by
  have hfst := updateAt_fst (fun m => (((f walker m).1, (f walker m).2.1, (f walker m).2.2.2),
    (f walker m).2.2.1)) s.maps i
  rw [hm] at hfst
  unfold withWalker
  rw [hc]
  simp only
  split
  · next hnone =>
    rw [hnone] at hfst
    simp at hfst
  · next reply walker' events hsome =>
    rw [hsome] at hfst
    simp only [Option.map_some, Option.some.injEq, Prod.mk.injEq] at hfst
    obtain ⟨rfl, rfl, rfl⟩ := hfst
    exact ⟨rfl, rfl⟩

theorem withWalker_eq_self {m : CodeMap w V} {r : Reply w V} (hc : s.walkers[c]? = some walker)
    (hm : s.maps[i]? = some m) (hf : f walker m = (r, walker, m, #[])) :
    s.withWalker c i f = ⟨r, s, #[]⟩ := by
  have hfst := updateAt_fst (fun m => (((f walker m).1, (f walker m).2.1, (f walker m).2.2.2),
    (f walker m).2.2.1)) s.maps i
  have hsnd := updateAt_eq_self (fun m => (((f walker m).1, (f walker m).2.1, (f walker m).2.2.2),
    (f walker m).2.2.1)) hm (by simp [hf])
  rw [hm, Option.map_some, hf] at hfst
  unfold withWalker
  rw [hc]
  simp only
  rw [hfst, hsnd]
  obtain ⟨hlt, rfl⟩ := List.getElem?_eq_some_iff.mp hc
  simp only [List.set_getElem_self]

theorem walkers_withWalker (hcd : c ≠ d) :
    (s.withWalker c i f).session.walkers[d]? = s.walkers[d]? := by
  unfold withWalker
  split
  · rfl
  · simp only
    split
    · rfl
    · exact List.getElem?_set_ne hcd

end WithWalker

inductive Alters [BEq V] (k : Command w V) (m : CodeMap w V) : CodeMap w V → Prop where
  | insert {key : CodeUnit w} {value : V} :
      k = .insert key value → Alters k m (m.insert key value).map
  | sheds {m' : CodeMap w V} :
      (∀ key value, k ≠ .insert key value) → m.Sheds m' → Alters k m m'

/-- A session after a command on the map at index `i`: the other maps are as before, and each map
comes from one that was there. -/
structure Follows [BEq V] (s s' : Session w V) (i : Nat) : Prop where
  old : ∀ (j : Nat) (m : CodeMap w V), s.maps[j]? = some m →
    ∃ m', s'.maps[j]? = some m' ∧ m.Becomes m' ∧ (i ≠ j → m' = m)
  new : ∀ (j : Nat) (m' : CodeMap w V), s'.maps[j]? = some m' →
    ∃ (k : Nat) (m : CodeMap w V), s.maps[k]? = some m ∧ m.Becomes m'

variable [BEq V]

theorem Alters.becomes {k : Command w V} {m m' : CodeMap w V} (h : Alters k m m') :
    m.Becomes m' := by
  cases h with
  | insert _ => exact .insert _ _
  | sheds _ hs => exact .sheds hs

def AltersAt (s : Session w V) (i : Nat) (k : Command w V) (s' : Session w V) : Prop :=
  ∃ f : CodeMap w V → CodeMap w V, (∀ m, Alters k m (f m)) ∧
    ∀ j, s'.maps[j]? = (s.maps[j]?).map fun m => if i = j then f m else m

section AltersAt

variable {s' : Session w V} {k : Command w V} (hk : ∀ key value, k ≠ .insert key value)
include hk

theorem altersAt_of_eq (h : s'.maps = s.maps) : s.AltersAt i k s' :=
  ⟨id, fun _ => .sheds hk .refl, fun j => by simp [h]⟩

theorem altersAt_withWalker
    {f : Walker w → CodeMap w V → Reply w V × Walker w × CodeMap w V × Array TableEvent}
    (hf : ∀ (walker : Walker w) (m : CodeMap w V), m.Sheds (f walker m).2.2.1) :
    s.AltersAt i k (s.withWalker c i f).session := by
  cases hc : s.walkers[c]? with
  | none =>
    rw [withWalker_none hc]
    exact altersAt_of_eq hk rfl
  | some walker => exact ⟨_, fun m => .sheds hk (hf walker m), fun j => maps_withWalker hc⟩

end AltersAt

/-- A command changes the map at its index, or it adds a copy of that map. -/
theorem perform_cases (s : Session w V) (i : Nat) (k : Command w V) :
    s.AltersAt i k (s.perform i k).session ∨
      k = .clone ∧ ∃ m, s.maps[i]? = some m ∧ (s.perform i k).session.maps = s.maps ++ [m] := by
  cases k with
  | insert key value =>
    exact Or.inl ⟨fun m => (m.insert key value).map, fun _ => .insert rfl, fun j => maps_onMap _⟩
  | retain keep =>
    exact Or.inl ⟨fun m => (m.retain keep).map,
      fun _ => .sheds nofun (Walk.run_sheds _ _ .refl), fun j => maps_onMap _⟩
  | clone =>
    unfold perform
    cases hm : s.maps[i]? with
    | none => exact Or.inl (altersAt_of_eq nofun rfl)
    | some m => exact Or.inr ⟨rfl, m, rfl, rfl⟩
  | walker => exact Or.inl (altersAt_of_eq nofun (maps_addWalker _))
  | cloneWalker d => exact Or.inl (altersAt_of_eq nofun (maps_addWalker _))
  | hasNext d =>
    unfold perform
    simp only
    split <;> exact Or.inl (altersAt_of_eq nofun rfl)
  | next d => exact Or.inl (altersAt_withWalker nofun fun _ _ => .refl)
  | remove d => exact Or.inl (altersAt_withWalker nofun fun walker _ => .remove .refl walker)
  | walk d choose limit =>
    exact Or.inl (altersAt_withWalker nofun fun _ _ => Walk.run_sheds _ _ .refl)
  | _ => exact Or.inl (altersAt_of_eq nofun rfl)

theorem perform_follows (s : Session w V) (i : Nat) (k : Command w V) :
    s.Follows (s.perform i k).session i := by
  rcases perform_cases s i k with ⟨f, hf, hmaps⟩ | ⟨_, m, hm, hmaps⟩
  · constructor
    · intro j m hm
      refine ⟨_, by rw [hmaps, hm, Option.map_some], ?_, fun hij => if_neg hij⟩
      split
      · exact (hf m).becomes
      · exact .sheds .refl
    · intro j m' hm'
      rw [hmaps, Option.map_eq_some_iff] at hm'
      obtain ⟨m, hm, rfl⟩ := hm'
      refine ⟨j, m, hm, ?_⟩
      split
      · exact (hf m).becomes
      · exact .sheds .refl
  · constructor
    · intro j m' hm'
      have hj := (List.getElem?_eq_some_iff.mp hm').1
      exact ⟨m', by rw [hmaps, List.getElem?_append_left hj, hm'], .sheds .refl, fun _ => rfl⟩
    · intro j m' hm'
      rw [hmaps] at hm'
      rcases List.mem_append.mp (List.mem_of_getElem? hm') with hold | hnew
      · obtain ⟨k, hk⟩ := List.mem_iff_getElem?.mp hold
        exact ⟨k, m', hk, .sheds .refl⟩
      · obtain rfl := List.mem_singleton.mp hnew
        exact ⟨i, _, hm, .sheds .refl⟩

theorem maps_insert {m : CodeMap w V} (hm : s.maps[i]? = some m) (key : CodeUnit w) (value : V) :
    (s.perform i (.insert key value)).session.maps[i]? = some (m.insert key value).map := by
  rw [perform, maps_onMap, hm, Option.map_some, if_pos rfl]

theorem perform_alters {m : CodeMap w V} (hm : s.maps[i]? = some m) (k : Command w V) :
    ∃ m', (s.perform i k).session.maps[i]? = some m' ∧ Alters k m m' := by
  rcases perform_cases s i k with ⟨f, hf, hmaps⟩ | ⟨rfl, _, _, hmaps⟩
  · exact ⟨f m, by rw [hmaps, hm, Option.map_some, if_pos rfl], hf m⟩
  · have hi := (List.getElem?_eq_some_iff.mp hm).1
    exact ⟨m, by rw [hmaps, List.getElem?_append_left hi, hm], .sheds nofun .refl⟩

theorem clone_of_new {k : Command w V} {m : CodeMap w V} (hj : s.maps[j]? = none)
    (hm : (s.perform i k).session.maps[j]? = some m) :
    k = .clone ∧ j = s.maps.length ∧ i < s.maps.length := by
  rcases perform_cases s i k with ⟨_, _, hmaps⟩ | ⟨hk, m', hm', hmaps⟩
  · rw [hmaps, hj, Option.map_none] at hm
    cases hm
  · rw [hmaps] at hm
    have hlt := (List.getElem?_eq_some_iff.mp hm).1
    rw [List.length_append, List.length_singleton] at hlt
    have hle := List.getElem?_eq_none_iff.mp hj
    exact ⟨hk, by omega, (List.getElem?_eq_some_iff.mp hm').1⟩

end Session

def Command.uses {w : Width} {V : Type} (c : Nat) : Command w V → Bool
  | .next d => d == c
  | .remove d => d == c
  | .walk d _ _ => d == c
  | _ => false

namespace Session

variable {w : Width} {V : Type} [BEq V] {s : Session w V} {i c : Nat} {walker : Walker w}

theorem walkers_perform (hc : s.walkers[c]? = some walker) {k : Command w V}
    (hk : k.uses c = false) :
    (s.perform i k).session.walkers[c]? = some walker := by
  cases k with
  | clone =>
    unfold perform
    cases s.maps[i]? <;> exact hc
  | walker => exact walkers_addWalker hc _
  | cloneWalker d => exact walkers_addWalker hc _
  | hasNext d =>
    unfold perform
    simp only
    split <;> exact hc
  | next d =>
    rw [perform, walkers_withWalker (by simpa [Command.uses] using hk), hc]
  | remove d =>
    rw [perform, walkers_withWalker (by simpa [Command.uses] using hk), hc]
  | walk d choose limit =>
    rw [perform, walkers_withWalker (by simpa [Command.uses] using hk), hc]
  | _ => exact hc

end Session

end LexBase
