import LexBase.Proofs.Scan.Range

/-!
# Moved since the last mark

Any call but a mark places the reader somewhere in its buffer and adds to the moved flag whether that was
another place; a mark remembers the place and clears the flag. So after a history of calls through all
views the flag says whether some call since the last mark changed the position, also when later calls have
undone the change.
-/

namespace LexBase

set_option autoImplicit false

variable {w : Width}

theorem Call.eq_setMark_of_opposite {k : Call} (h : k.opposite = some setMark) : k = setMark := by
  cases k with
  | setMark => rfl
  | advance o =>
    obtain ⟨_, hsome⟩ := Option.ite_none_left_eq_some.mp h
    cases hsome
  | _ => cases h

namespace BufferReader

variable {c : BufferReader w} {hs : List (View × Call)}

section Placing

def Places (c : BufferReader w) (r : Option (Answer w × BufferReader w)) : Prop :=
  ∀ a c', r = some (a, c') → ∃ i, c' = c.placed i

theorem places_same (a : Answer w) : c.Places (some (a, c)) := by
  rintro _ _ ⟨⟩
  exact ⟨c.position, c.placed_self.symm⟩

theorem places_unit (t : Int) : c.Places (c.unitReply t) := by
  intro a c' h
  obtain ⟨u, _, heq⟩ := Option.map_eq_some_iff.mp h
  exact places_same _ a c' (congrArg some heq)

theorem places_step (t : Int) (i : Nat) : c.Places (c.stepReply t i) := by
  intro a c' h
  obtain ⟨_, hdue, heq⟩ := Option.map_eq_some_iff.mp h
  obtain ⟨u, _, rfl⟩ := Option.map_eq_some_iff.mp hdue
  exact ⟨i, (Prod.mk.inj heq).2.symm⟩

theorem places_move (t : Int) : c.Places (c.moveReply t) := by
  intro a c' h
  obtain ⟨_, hdue, heq⟩ := Option.map_eq_some_iff.mp h
  obtain ⟨_, hplace⟩ := Option.ite_none_right_eq_some.mp hdue
  obtain rfl := Option.some.inj hplace
  exact ⟨t.toNat, (Prod.mk.inj heq).2.symm⟩

theorem places_range (answer : List (CodeUnit w) → Answer w) (s e : Nat) :
    c.Places (c.rangeReply answer s e) := by
  intro a c' h
  obtain ⟨_, heq⟩ := Option.ite_none_right_eq_some.mp h
  exact places_same _ a c' heq

theorem places_reply {k : Call} (hk : k ≠ .setMark) : c.Places (c.reply .forward k) := by
  cases k with
  | next => exact places_step _ _
  | back => exact places_step _ _
  | peek => exact places_unit _
  | peekBy o => exact places_unit _
  | peekBack => exact places_unit _
  | peekBackBy o => exact places_unit _
  | unitAt i => exact places_unit _
  | seek i => exact places_move _
  | advance o => exact places_move _
  | toEnd => exact places_move _
  | units s e => exact places_range _ _ _
  | text s e => exact places_range _ _ _
  | setMark => exact absurd rfl hk
  | _ => exact places_same _

theorem Meets.placed {g : Option (Answer w × BufferReader w)} {r : Answer w × BufferReader w}
    (hm : c.Meets g r) (h : c.Places g) : ∃ i, r.2 = c.placed i := by
  cases hm with
  | granted r => exact h r.1 r.2 rfl
  | refused f => exact ⟨c.position, c.placed_self.symm⟩

end Placing

theorem perform_placed (h : c.position ≤ c.length) (v : View) {k : Call} (hk : k ≠ .setMark) :
    ∃ i, (v.perform c k).2 = c.placed i := by
  rw [v.perform_eq]
  cases v.direction with
  | forward => exact (perform_meets_forward h k).placed (places_reply hk)
  | backward =>
    rcases perform_backward_cases c k with ⟨k', hopp, heq⟩ | hsame
    · rw [heq]
      refine (perform_meets_forward h k').placed (places_reply ?_)
      rintro rfl
      exact hk (Call.eq_setMark_of_opposite hopp)
    · exact ⟨c.position, hsame.trans c.placed_self.symm⟩

def Unmarked (hs : List (View × Call)) : Prop := ∀ g ∈ hs, g.2 ≠ .setMark

/-- Some call since the last mark, or since the start, has changed the position. -/
def MovedSince (c : BufferReader w) (hs : List (View × Call)) : Prop :=
  ∃ before h later, hs = before ++ h :: later ∧ Unmarked (h :: later) ∧
    (c.after (before ++ [h])).position ≠ (c.after before).position

section Steps

variable {h : View × Call}

theorem unmarked_cons : Unmarked (h :: hs) ↔ h.2 ≠ .setMark ∧ Unmarked hs :=
  List.forall_mem_cons

theorem movedSince_cons : c.MovedSince (h :: hs) ↔
    (h.1.perform c h.2).2.MovedSince hs ∨
      (Unmarked (h :: hs) ∧ (h.1.perform c h.2).2.position ≠ c.position) := by
  constructor
  · rintro ⟨before, g, later, heq, hmarks, hmoved⟩
    cases before with
    | nil =>
      obtain ⟨rfl, rfl⟩ := List.cons.inj heq
      exact .inr ⟨hmarks, hmoved⟩
    | cons first before =>
      obtain ⟨rfl, rfl⟩ := List.cons.inj heq
      exact .inl ⟨before, g, later, rfl, hmarks, hmoved⟩
  · rintro (⟨before, g, later, rfl, hmarks, hmoved⟩ | ⟨hmarks, hmoved⟩)
    · exact ⟨h :: before, g, later, rfl, hmarks, hmoved⟩
    · exact ⟨[], h, hs, rfl, hmarks, hmoved⟩

theorem perform_setMark (v : View) : (v.perform c .setMark).2 = c.marked := by
  rw [v.perform_eq]
  cases v.direction <;> rfl

theorem moved_perform (hpos : c.position ≤ c.length) (v : View) {k : Call} (hk : k ≠ .setMark) :
    (v.perform c k).2.moved = true ↔
      c.moved = true ∨ (v.perform c k).2.position ≠ c.position := by
  obtain ⟨i, hi⟩ := perform_placed hpos v hk
  rw [hi]
  unfold placed
  rw [Bool.or_eq_true, bne_iff_ne]

theorem mark_perform (hpos : c.position ≤ c.length) (v : View) {k : Call} (hk : k ≠ .setMark) :
    (v.perform c k).2.mark = c.mark := by
  obtain ⟨i, hi⟩ := perform_placed hpos v hk
  rw [hi]
  rfl

end Steps

theorem moved_after (hpos : c.position ≤ c.length) (hs : List (View × Call)) :
    (c.after hs).moved = true ↔ c.MovedSince hs ∨ (c.moved = true ∧ Unmarked hs) := by
  induction hs generalizing c with
  | nil =>
    constructor
    · intro hmoved
      exact .inr ⟨hmoved, fun _ hg => absurd hg List.not_mem_nil⟩
    · rintro (⟨before, g, later, heq, _⟩ | ⟨hmoved, _⟩)
      · exact absurd heq.symm (List.append_ne_nil_of_right_ne_nil _ (List.cons_ne_nil _ _))
      · exact hmoved
  | cons h hs ih =>
    have hnext := ih ((leaves_view h.1 c h.2).position_le hpos)
    change ((h.1.perform c h.2).2.after hs).moved = true ↔ _
    rw [hnext, movedSince_cons, unmarked_cons]
    by_cases hk : h.2 = .setMark
    · have hclear : (h.1.perform c h.2).2.moved = false := by
        rw [hk, perform_setMark]
        rfl
      rw [hclear]
      grind
    · rw [moved_perform hpos h.1 hk]
      grind

theorem mark_after (hpos : c.position ≤ c.length) (hmarks : Unmarked hs) :
    (c.after hs).mark = c.mark := by
  induction hs generalizing c with
  | nil => rfl
  | cons h hs ih =>
    obtain ⟨hk, hrest⟩ := unmarked_cons.mp hmarks
    have hnext := ih ((leaves_view h.1 c h.2).position_le hpos) hrest
    exact hnext.trans (mark_perform hpos h.1 hk)

/-- What a reader shows after a history, through any view. -/
structure Tracks (c : BufferReader w) (hs : List (View × Call)) : Prop where
  position_shown : ∀ v : View,
    v.perform (c.after hs) .position = (.number (c.after hs).position, c.after hs)
  mark_shown : ∀ v : View, v.perform (c.after hs) .mark = (.number (c.after hs).mark, c.after hs)
  moved_shown : ∀ v : View, v.perform (c.after hs) .moved = (.flag (c.after hs).moved, c.after hs)
  moved_iff : (c.after hs).moved = true ↔ c.MovedSince hs
  mark_of_marked : ∀ v before later, hs = before ++ (v, .setMark) :: later → Unmarked later →
    (c.after hs).mark = (c.after before).position
  mark_of_unmarked : Unmarked hs → (c.after hs).mark = 0

/-- The flag of a reader tells whether some call since the last mark has changed the position, and its
mark is the position then; all views always show the same. -/
theorem ofBuffer_tracks (buffer : Array (CodeUnit w)) (hs : List (View × Call)) :
    (ofBuffer buffer).Tracks hs := by
  have hpos : (ofBuffer buffer).position ≤ (ofBuffer buffer).length := Nat.zero_le _
  refine ⟨?_, ?_, ?_, ?_, ?_, mark_after hpos⟩
  · intro v
    rw [v.perform_eq]
    cases v.direction <;> rfl
  · intro v
    rw [v.perform_eq]
    cases v.direction <;> rfl
  · intro v
    rw [v.perform_eq]
    cases v.direction <;> rfl
  · rw [moved_after hpos]
    exact or_iff_left fun h => Bool.false_ne_true h.1
  · rintro v before later rfl hmarks
    rw [after_append]
    have hbefore := position_after_le hpos before
    change (((v.perform ((ofBuffer buffer).after before) .setMark).2).after later).mark = _
    rw [perform_setMark]
    exact mark_after (c := ((ofBuffer buffer).after before).marked) hbefore hmarks

end BufferReader

end LexBase
