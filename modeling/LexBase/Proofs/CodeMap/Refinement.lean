import LexBase.Proofs.Walker.Walks
import LexBase.Session

/-!
# Answers from the contents

A run of requests to one map is answered as its contents answer it: the layout of the table never
shows. An entry is erased by a fresh walker that is led to its key. The order in which a retain
asks about the entries is not fixed by the contents, except that the null key comes last.
-/

namespace LexBase

set_option autoImplicit false

variable {w : Width} {V : Type} [BEq V]

inductive Request (w : Width) (V : Type) where
  | insert (key : CodeUnit w) (value : V)
  | get (key : CodeUnit w)
  | contains (key : CodeUnit w)
  | size
  | isEmpty
  | keys
  | erase (key : CodeUnit w)
  | retain (keep : Walk.Chooser w V)

/-- Calls `next` until it produces the key; at most `limit` calls. -/
def Walker.seek (c : Walker w) (m : CodeMap w V) (key : CodeUnit w) :
    Nat → Option (Except WalkError (Walker w))
  | 0 => none
  | limit + 1 =>
    match c.next m with
    | (.ok e, c') => if e.key = key then some (.ok c') else seek c' m key limit
    | (.error err, _) => some (.error err)

namespace CodeMap

/-- Every entry, the null key and the end of the walk take one call each. -/
def erase (m : CodeMap w V) (key : CodeUnit w) : Reply w V × CodeMap w V :=
  match m.walker.seek m key (m.size + 2) with
  | none => (.missing, m)
  | some (.error err) => (.taken (.error err), m)
  | some (.ok c) =>
    let ⟨answer, _, m', _⟩ := c.remove m
    (.taken answer, m')

def answer (m : CodeMap w V) : Request w V → Reply w V × CodeMap w V
  | .insert key value =>
    let ⟨previous, m', _⟩ := m.insert key value
    (.replaced previous, m')
  | .get key => (.value (m.get key), m)
  | .contains key => (.flag (m.contains key), m)
  | .size => (.number m.size, m)
  | .isEmpty => (.flag m.isEmpty, m)
  | .keys => (.units m.keys, m)
  | .erase key => m.erase key
  | .retain keep =>
    let ⟨_, m', visits, _⟩ := m.retain keep
    (.visited visits none, m')

def answers (m : CodeMap w V) : List (Request w V) → List (Reply w V)
  | [] => []
  | q :: qs =>
    let (r, m') := m.answer q
    r :: answers m' qs

end CodeMap

namespace Contents

/-- The answers that contents may give to a request, with the contents after it. -/
inductive Answers (s : Contents w V) : Request w V → Reply w V → Contents w V → Prop where
  | insert (key : CodeUnit w) (value : V) :
      Answers s (.insert key value) (.replaced (s.stored key)) (s.bind key value)
  | get (key : CodeUnit w) : Answers s (.get key) (.value ((s.stored key).getD s.default)) s
  | contains (key : CodeUnit w) : Answers s (.contains key) (.flag (s.present key).isSome) s
  | size : Answers s .size (.number s.size) s
  | isEmpty : Answers s .isEmpty (.flag (s.size == 0)) s
  | keys : Answers s .keys (.units s.keys) s
  | erase {key : CodeUnit w} {v : V} : s.present key = some v →
      Answers s (.erase key) (.taken (.ok v)) (s.release key)
  | absent {key : CodeUnit w} : s.present key = none →
      Answers s (.erase key) (.taken (.error .exhausted)) s
  | retain (keep : Walk.Chooser w V) {es : List (Entry w V)} {visits : Array (Visit w V)}
      {s' : Contents w V} : es.Perm s.entries →
      s.sift (fun seen e => !keep seen e) #[] (es ++ s.nullEntries) = (visits, s') →
      Answers s (.retain keep) (.visited visits none) s'

inductive Allows : Contents w V → List (Request w V) → List (Reply w V) → Prop where
  | nil {s : Contents w V} : Allows s [] []
  | cons {s s' : Contents w V} {q : Request w V} {r : Reply w V} {qs : List (Request w V)}
      {rs : List (Reply w V)} : s.Answers q r s' → Allows s' qs rs → Allows s (q :: qs) (r :: rs)

end Contents

variable {c : Walker w} {m : CodeMap w V} {s : Contents w V} {key : CodeUnit w}

namespace Walker

inductive Sought (c : Walker w) (m : CodeMap w V) (key : CodeUnit w) :
    Option (Except WalkError (Walker w)) → Prop where
  | found {c' : Walker w} {e : Entry w V} : c'.On m → c'.At m e → e.key = key →
      Sought c m key (some (.ok c'))
  | absent : (∀ e ∈ c.rest m, e.key ≠ key) →
      (key = .null w → c.nullVisited = true ∨ m.presentNull = none) →
      Sought c m key (some (.error .exhausted))

/-- The most calls of next until a walk ends, the last one included. -/
def budget (c : Walker w) (m : CodeMap w V) : Nat :=
  (c.rest m).length + if c.nullVisited then 1 else 2

theorem On.seek (h : c.On m) (key : CodeUnit w) (limit : Nat) (hlimit : c.budget m ≤ limit) :
    c.Sought m key (c.seek m key limit) := by
  induction limit generalizing c with
  | zero =>
    unfold budget at hlimit
    split at hlimit <;> omega
  | succ limit ih =>
    have hn := h.nexts
    unfold Walker.seek
    generalize c.next m = outcome at hn ⊢
    cases hn with
    | @entry e c' hon hat hk hrest hv =>
      simp only
      by_cases hkey : e.key = key
      · rw [if_pos hkey]
        exact .found hon hat hkey
      · rw [if_neg hkey]
        have hbudget : c'.budget m ≤ limit := by
          unfold budget at hlimit ⊢
          rw [hrest, List.length_cons] at hlimit
          rw [hv]
          omega
        have hs := ih hon hbudget
        generalize c'.seek m key limit = result at hs ⊢
        cases hs with
        | found hon' hat' hkey' => exact .found hon' hat' hkey'
        | absent hall hnull =>
          apply Sought.absent
          · rw [hrest]
            exact List.forall_mem_cons.mpr ⟨hkey, hall⟩
          · rw [← hv]
            exact hnull
    | @null v c' hon hc hrest hrest' hv hp hv' =>
      simp only
      by_cases hkey : CodeUnit.null w = key
      · rw [if_pos hkey]
        exact .found hon (.null hc hp) hkey
      · rw [if_neg hkey]
        have hbudget : c'.budget m ≤ limit := by
          unfold budget at hlimit ⊢
          rw [hrest, hv] at hlimit
          rw [hrest', hv']
          simp at hlimit ⊢
          omega
        have hs := ih hon hbudget
        generalize c'.seek m key limit = result at hs ⊢
        cases hs with
        | found hon' hat' hkey' => exact .found hon' hat' hkey'
        | absent _ _ =>
          apply Sought.absent
          · rw [hrest]
            intro e he
            exact absurd he List.not_mem_nil
          · intro hnull
            exact absurd hnull.symm hkey
    | exhausted _ _ hrest _ hnull _ =>
      apply Sought.absent
      · rw [hrest]
        intro e he
        exact absurd he List.not_mem_nil
      · exact fun _ => hnull

omit [BEq V] in
theorem budget_walker (h : m.Valid) : m.walker.budget m ≤ m.size + 2 := by
  unfold budget
  rw [(rest_walker_perm h).length_eq, ← h.table.counted]
  exact Nat.le_refl _

end Walker

namespace CodeMap

theorem Represents.not_present (hr : m.Represents s)
    (hall : ∀ e ∈ m.table.entries, e.key ≠ key)
    (hnull : key = .null w → m.presentNull = none) : s.present key = none := by
  unfold Contents.present
  split
  · next hk =>
    rw [← hr.presentNull_eq]
    exact hnull hk
  · cases hb : s.bound key with
    | none => rfl
    | some v => exact absurd rfl (hall ⟨key, v⟩ ((hr.mem_iff _).mpr hb))

theorem Represents.erase (hr : m.Represents s) (key : CodeUnit w) :
    ∃ s', s.Answers (.erase key) (m.erase key).1 s' ∧ (m.erase key).2.Represents s' := by
  have hon := Walker.on_walker hr.valid
  have hperm := Walker.rest_walker_perm hr.valid
  have hs := hon.seek key _ (Walker.budget_walker hr.valid)
  unfold CodeMap.erase
  generalize m.walker.seek m key (m.size + 2) = result at hs ⊢
  cases hs with
  | @found c e hon' hat hkey =>
    have hl := hon'.leaves hat hr
    have hp := Walker.present_of_at hr hat
    subst hkey
    refine ⟨s.release e.key, ?_, hl.represents⟩
    simp only [hl.answer_eq]
    exact .erase hp
  | absent hall hnull =>
    refine ⟨s, .absent (hr.not_present ?_ ?_), hr⟩
    · intro e he
      exact hall e (hperm.mem_iff.mpr he)
    · intro hk
      cases hnull hk with
      | inl hv => cases hv
      | inr hp => exact hp

theorem Represents.retain (hr : m.Represents s) (keep : Walk.Chooser w V) :
    ∃ s', s.Answers (.retain keep) (.visited (m.retain keep).visits none) s' ∧
      (m.retain keep).map.Represents s' := by
  obtain ⟨es, hes, hsift⟩ := hr.retain_sifted keep
  refine ⟨_, .retain keep (hes.trans hr.entries_perm) ?_, hsift.represents⟩
  exact Prod.ext hsift.visits_eq.symm rfl

theorem Represents.answer (hr : m.Represents s) (q : Request w V) :
    ∃ s', s.Answers q (m.answer q).1 s' ∧ (m.answer q).2.Represents s' := by
  cases q with
  | insert key value =>
    obtain ⟨hprevious, hrep⟩ := hr.insert key value
    have ha : s.Answers (.insert key value) (.replaced (m.insert key value).previous)
        (s.bind key value) := by
      rw [hprevious]
      exact .insert key value
    exact ⟨_, ha, hrep⟩
  | get key =>
    have ha : s.Answers (.get key) (.value (m.get key)) s := by
      rw [hr.get_eq]
      exact .get key
    exact ⟨s, ha, hr⟩
  | contains key =>
    have ha : s.Answers (.contains key) (.flag (m.contains key)) s := by
      rw [hr.contains_eq]
      exact .contains key
    exact ⟨s, ha, hr⟩
  | size =>
    have ha : s.Answers .size (.number m.size) s := by
      rw [hr.size_eq]
      exact .size
    exact ⟨s, ha, hr⟩
  | isEmpty =>
    have ha : s.Answers .isEmpty (.flag (m.size == 0)) s := by
      rw [hr.size_eq]
      exact .isEmpty
    exact ⟨s, ha, hr⟩
  | keys =>
    have ha : s.Answers .keys (.units m.keys) s := by
      rw [hr.keys_eq]
      exact .keys
    exact ⟨s, ha, hr⟩
  | erase key => exact hr.erase key
  | retain keep => exact hr.retain keep

theorem Represents.answers (hr : m.Represents s) (qs : List (Request w V)) :
    s.Allows qs (m.answers qs) := by
  induction qs generalizing m s with
  | nil => exact .nil
  | cons q qs ih =>
    obtain ⟨s', hanswer, hrep⟩ := hr.answer q
    exact .cons hanswer (ih hrep)

/-- A new map answers every run of requests as a finite map and a value of the null key do. -/
theorem constructed_allows (h : m.Constructed) (qs : List (Request w V)) :
    (Contents.blank m.default).Allows qs (m.answers qs) :=
  h.represents.answers qs

theorem constructed_allows_sample :
    (Contents.blank 0 : Contents .byte Nat).Allows
      [.insert 7 70, .insert 7 71, .insert 0 0, .contains 0, .erase 7, .get 7, .erase 9, .size]
      [.replaced none, .replaced (some 70), .replaced none, .flag false, .taken (.ok 71), .value 0,
        .taken (.error .exhausted), .number 0] :=
  constructed_allows (.empty 0)
    [.insert 7 70, .insert 7 71, .insert 0 0, .contains 0, .erase 7, .get 7, .erase 9, .size]

end CodeMap

end LexBase
