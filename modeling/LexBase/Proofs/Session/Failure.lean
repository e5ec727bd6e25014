import LexBase.Proofs.CodeMap.Tidy
import LexBase.Proofs.Session.Walks
import LexBase.Proofs.Walker.Outcome

/-!
# Failing calls

A call of a walker that fails leaves the map as it was, with one exception: a removal at the null
key fails if the value there has become the default, but it empties the slot on the way. The map is
tidied by that, so only an insertion at the null key can tell the difference, by its answer.
-/

namespace LexBase

set_option autoImplicit false

variable {w : Width} {V : Type} [BEq V]

def Command.fillsNull : Command w V → Bool
  | .insert key _ => key.isNull
  | _ => false

def Session.tidy (s : Session w V) : Session w V := ⟨s.maps.map CodeMap.tidy, s.walkers⟩

def Effect.tidy (e : Effect w V) : Effect w V := { e with session := e.session.tidy }

namespace Session

def replies (s : Session w V) (ks : List (Nat × Command w V)) : List (Reply w V) :=
  (s.run ks).map Effect.reply

theorem updateAt_map {α β : Type} {f : α → β × α} {g : α → α}
    (h : ∀ a, f (g a) = ((f a).1, g (f a).2)) (l : List α) (i : Nat) :
    updateAt f (l.map g) i = ((updateAt f l i).1, (updateAt f l i).2.map g) := by
  induction l generalizing i with
  | nil => rfl
  | cons a as ih =>
    cases i with
    | zero => simp only [List.map_cons, updateAt, h]
    | succ i => simp only [List.map_cons, updateAt, ih]

variable (s : Session w V) (i : Nat)

@[simp] theorem walkers_tidy : s.tidy.walkers = s.walkers := rfl

theorem onMap_tidy {f : CodeMap w V → (Reply w V × Array TableEvent) × CodeMap w V}
    (h : ∀ m, f m.tidy = ((f m).1, (f m).2.tidy)) : s.tidy.onMap i f = (s.onMap i f).tidy := by
  simp only [onMap, tidy, updateAt_map h]
  rfl

theorem ask_tidy {f : CodeMap w V → Reply w V} (h : ∀ m, f m.tidy = f m) :
    s.tidy.ask i f = (s.ask i f).tidy := by
  simp only [ask, tidy, List.getElem?_map, Option.map_map]
  have hf : f ∘ CodeMap.tidy = f := funext h
  rw [hf]
  rfl

theorem addWalker_tidy (c : Option (Walker w)) : s.tidy.addWalker c = (s.addWalker c).tidy := by
  cases c <;> rfl

theorem addMap_tidy (m : CodeMap w V) : s.tidy.addMap m.tidy = (s.addMap m).tidy := by
  simp only [addMap, Effect.tidy, tidy, List.map_append, List.length_map]
  rfl

theorem withWalker_tidy (c : Nat)
    {f : Walker w → CodeMap w V → Reply w V × Walker w × CodeMap w V × Array TableEvent}
    (h : ∀ c m, f c m.tidy = ((f c m).1, (f c m).2.1, (f c m).2.2.1.tidy, (f c m).2.2.2)) :
    s.tidy.withWalker c i f = (s.withWalker c i f).tidy := by
  simp only [withWalker, walkers_tidy]
  cases s.walkers[c]? with
  | none => rfl
  | some walker =>
    simp only [tidy]
    rw [updateAt_map (fun m => by rw [h])]
    generalize updateAt _ s.maps i = outcome
    obtain ⟨answer, maps⟩ := outcome
    cases answer <;> rfl

theorem perform_tidy [LawfulBEq V] {k : Command w V} (hk : k.fillsNull = false) :
    s.tidy.perform i k = (s.perform i k).tidy := by
  cases k with
  | insert key value =>
    apply onMap_tidy
    intro m
    rw [CodeMap.insert_tidy]
    · rfl
    · intro hnull
      rw [Command.fillsNull, (CodeUnit.isNull_iff key).mpr hnull] at hk
      cases hk
  | get key => exact ask_tidy s i fun m => by rw [m.get_tidy]
  | contains key => exact ask_tidy s i fun m => by rw [m.contains_tidy]
  | size => exact ask_tidy s i fun m => rfl
  | isEmpty => exact ask_tidy s i fun m => rfl
  | capacity => exact ask_tidy s i fun m => rfl
  | default => exact ask_tidy s i fun m => rfl
  | keys => exact ask_tidy s i fun m => by rw [m.keys_tidy]
  | toList => exact ask_tidy s i fun m => by rw [m.toList_tidy]
  | iterate limit => exact ask_tidy s i fun m => by rw [m.iter_tidy]
  | retain keep =>
    apply onMap_tidy
    intro m
    rw [m.retain_tidy]
    rfl
  | clone =>
    simp only [perform, tidy, List.getElem?_map]
    cases s.maps[i]? with
    | none => rfl
    | some m => exact addMap_tidy s m
  | walker =>
    simp only [perform, tidy, List.getElem?_map, Option.map_map]
    exact addWalker_tidy s _
  | cloneWalker d => exact addWalker_tidy s _
  | hasNext d =>
    simp only [perform, walkers_tidy]
    cases s.walkers[d]? with
    | none => rfl
    | some walker => exact ask_tidy s i fun m => by rw [walker.hasNext_tidy]
  | next d =>
    simp only [perform]
    apply withWalker_tidy
    intro c m
    rw [c.next_tidy]
  | remove d =>
    simp only [perform]
    apply withWalker_tidy
    intro c m
    rw [c.remove_tidy]
    rfl
  | walk d choose limit =>
    simp only [perform]
    apply withWalker_tidy
    intro c m
    rw [c.walk_tidy]
    rfl

theorem replies_tidy [LawfulBEq V] {ks : List (Nat × Command w V)}
    (hks : ∀ k ∈ ks, k.2.fillsNull = false) : s.tidy.replies ks = s.replies ks := by
  unfold replies
  induction ks generalizing s with
  | nil => rfl
  | cons k ks ih =>
    obtain ⟨hk, hrest⟩ := List.forall_mem_cons.mp hks
    simp only [run, perform_tidy s k.1 hk, List.map_cons]
    exact congrArg _ (ih (s.perform k.1 k.2).session hrest)

end Session

namespace Walker

variable {c : Walker w} {m : CodeMap w V} {err : WalkError}

/-- The call that empties a slot which counts as empty already. -/
def Idles (c : Walker w) (m : CodeMap w V) : Prop :=
  c.matchesMap m = true ∧ c.current = some .null ∧ m.nullValue.isSome = true

theorem remove_fails (ha : m.table.Aligned) (h : (c.remove m).answer = .error err) :
    (c.remove m).map = m ∧ ¬ c.Idles m ∨
      (c.remove m).map = m.tidy ∧ c.Idles m ∧ m.presentNull = none := by
  have hr := removes ha c
  generalize c.remove m = r at hr h ⊢
  unfold Idles
  cases hr with
  | differs hdiff => exact Or.inl ⟨rfl, by simp [hdiff]⟩
  | unset _ hc => exact Or.inl ⟨rfl, by simp [hc]⟩
  | vacant _ hc _ => exact Or.inl ⟨rfl, by simp [hc]⟩
  | absent hmatch hc hn =>
    cases hv : m.nullValue with
    | none =>
      refine Or.inl ⟨?_, by simp⟩
      obtain ⟨table, sizing, nullValue, default⟩ := m
      exact congrArg (CodeMap.mk table sizing · default) hv.symm
    | some v => exact Or.inr ⟨(m.tidy_of_none hn).symm, ⟨hmatch, hc, rfl⟩, hn⟩
  | null _ _ _ => cases h
  | entry _ _ _ _ => cases h

end Walker

namespace Session

variable {s : Session w V} {i c : Nat} {walker : Walker w} {m : CodeMap w V} {err : WalkError}

theorem maps_next (s : Session w V) (i c : Nat) :
    (s.perform i (.next c)).session.maps = s.maps := by
  apply List.ext_getElem?
  intro j
  cases hc : s.walkers[c]? with
  | none => rw [perform, withWalker_none hc]
  | some walker =>
    rw [perform, maps_withWalker hc]
    simp

theorem replies_insert_null (m : CodeMap w V) (value : V) :
    replies ⟨[m], []⟩ [(0, .insert (.null w) value)] = [.replaced m.nullValue] := by
  simp only [replies, run, perform, onMap, updateAt, CodeMap.insert_of_null rfl]
  rfl

/-- A call that fails goes unnoticed by every later run of commands on its map, unless it removes at
the null key and the slot holds the default; then only insertions at the null key notice. -/
theorem failed_call_unnoticed_iff (hp : s.Pair i c walker m) (ha : m.table.Aligned) :
    (s.perform i (.next c)).session.maps = s.maps ∧
      ∀ err, (s.perform i (.remove c)).reply = .taken (.error err) →
        ∃ m', (s.perform i (.remove c)).session.maps[i]? = some m' ∧
          ((∀ ks, replies ⟨[m'], []⟩ ks = replies ⟨[m], []⟩ ks) ↔ ¬ walker.Idles m) ∧
          (LawfulBEq V → ∀ ks, (∀ k ∈ ks, k.2.fillsNull = false) →
            replies ⟨[m'], []⟩ ks = replies ⟨[m], []⟩ ks) := by
  refine ⟨maps_next s i c, ?_⟩
  intro err hfail
  refine ⟨_, hp.remove.map_eq, ?_⟩
  rw [hp.remove_reply] at hfail
  rcases Walker.remove_fails ha (Reply.taken.inj hfail) with ⟨hsame, hidle⟩ | ⟨htidy, hidle, hnull⟩
  · rw [hsame]
    exact ⟨⟨fun _ => hidle, fun _ _ => rfl⟩, fun _ _ _ => rfl⟩
  · rw [htidy]
    constructor
    · constructor
      · intro hall
        have hinsert := hall [(0, .insert (.null w) m.default)]
        rw [replies_insert_null, replies_insert_null, m.tidy_of_none hnull] at hinsert
        have hvalue := Reply.replaced.inj (List.cons.inj hinsert).1
        obtain ⟨_, _, hsome⟩ := hidle
        rw [← hvalue] at hsome
        cases hsome
      · intro hno
        exact absurd hidle hno
    · intro hlawful ks hks
      exact replies_tidy ⟨[m], []⟩ hks

/-- A walker at the null key, whose value has become the default since. -/
def idle : Session .byte Nat :=
  (Session.addMap ⟨[], []⟩ (.empty 0)).session.after
    [(0, .insert 0 5), (0, .walker), (0, .next 0), (0, .insert 0 0)]

theorem idle_failure_unnoticed :
    ∃ m m', idle.maps[0]? = some m ∧
      (idle.perform 0 (.remove 0)).reply = .taken (.error .invalidRemoval) ∧
      (idle.perform 0 (.remove 0)).session.maps[0]? = some m' ∧
      replies ⟨[m'], []⟩ [(0, .get 0), (0, .insert 7 70), (0, .keys)] =
        replies ⟨[m], []⟩ [(0, .get 0), (0, .insert 7 70), (0, .keys)] := by
  have hp : ∃ walker m, idle.Pair 0 0 walker m := ⟨_, _, rfl, rfl⟩
  obtain ⟨walker, m, hp⟩ := hp
  have hreach : idle.Reachable := .after (.addMap .start (.empty 0)) _
  have hv := hreach.valid m (List.mem_of_getElem? hp.map_eq)
  obtain ⟨_, hremove⟩ := failed_call_unnoticed_iff hp hv.table.aligned
  obtain ⟨m', hm', _, hsame⟩ := hremove .invalidRemoval rfl
  refine ⟨m, m', hp.map_eq, rfl, hm', ?_⟩
  apply hsame inferInstance
  decide

/-- The insertion after the failing call answers with nothing instead of the default. -/
theorem idle_failure_noticed :
    idle.Reachable ∧ ∃ m m', idle.maps[0]? = some m ∧
      (idle.perform 0 (.remove 0)).reply = .taken (.error .invalidRemoval) ∧
      (idle.perform 0 (.remove 0)).session.maps[0]? = some m' ∧
      replies ⟨[m], []⟩ [(0, .insert 0 9)] = [.replaced (some 0)] ∧
      replies ⟨[m'], []⟩ [(0, .insert 0 9)] = [.replaced none] :=
  ⟨.after (.addMap .start (.empty 0)) _, _, _, rfl, rfl, rfl, rfl, rfl⟩

end Session

end LexBase
