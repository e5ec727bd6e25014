import LexBase.Text.Decode

/-!
# Where a text may be cut

A decoder holds back at most the start of one character. Where the next unit does not fit, what is held
back is replaced and that unit is read afresh, just as at the end of the input. So the texts of two pieces
give the text of the whole exactly if no unit after the cut fits what is held back at the cut.
-/

namespace LexBase

set_option autoImplicit false

namespace Decoder

variable {α σ τ : Type}

def yielded (d : Decoder α σ) : σ → List α → List Char
  | _, [] => []
  | s, a :: as => (d.step s a).1 ++ d.yielded (d.step s a).2 as

def reached (d : Decoder α σ) (s : σ) (as : List α) : σ := as.foldl (fun s a => (d.step s a).2) s

theorem run_append (d : Decoder α σ) (s : σ) (as bs : List α) :
    d.run s (as ++ bs) = d.yielded s as ++ d.run (d.reached s as) bs := by
  induction as generalizing s with
  | nil => rfl
  | cons a as ih =>
    rw [List.cons_append, run_cons, ih, ← List.append_assoc]
    rfl

theorem run_eq (d : Decoder α σ) (s : σ) (as : List α) :
    d.run s as = d.yielded s as ++ d.finish (d.reached s as) := by
  have happend := d.run_append s as []
  rwa [List.append_nil] at happend

theorem reached_concat (d : Decoder α σ) (s : σ) (as : List α) (a : α) :
    d.reached s (as ++ [a]) = (d.step (d.reached s as) a).2 := by
  unfold reached
  rw [List.foldl_append]
  rfl

/-- Some unit makes the decoder hold this back. -/
def Holds (d : Decoder α (Option τ)) (t : τ) : Prop := ∃ s a, (d.step s a).2 = some t

/-- What is held back is completed by units that fit and replaced before any other. A unit that fits can
start no character. -/
structure Replaces (d : Decoder α (Option τ)) (fits : τ → α → Prop) : Prop where
  finish_none : d.finish none = []
  finish_some : ∀ t, d.finish (some t) = [replacement]
  broken : ∀ t a, ¬fits t a → d.step (some t) a = (replacement :: (d.step none a).1, (d.step none a).2)
  joined : ∀ t a, fits t a →
    (∃ c, d.step (some t) a = ([c], none)) ∨ ∃ t', d.step (some t) a = ([], some t')
  stray : ∀ t a, d.Holds t → fits t a → d.step none a = ([replacement], none)

theorem holds_reached {d : Decoder α (Option τ)} {as : List α} {t : τ}
    (h : d.reached none as = some t) : d.Holds t := by
  rcases List.eq_nil_or_concat as with rfl | ⟨as', a, rfl⟩
  · cases h
  · rw [List.concat_eq_append, reached_concat] at h
    exact ⟨_, a, h⟩

namespace Replaces

variable {d : Decoder α (Option τ)} {fits : τ → α → Prop} (h : d.Replaces fits)

include h

theorem run_broken {t : τ} {a : α} (hfit : ¬fits t a) (as : List α) :
    d.run (some t) (a :: as) = d.finish (some t) ++ d.run none (a :: as) := by
  rw [run_cons, run_cons, h.broken t a hfit, h.finish_some]
  rfl

theorem run_stray {t : τ} {a : α} (ht : d.Holds t) (hfit : fits t a) (as : List α) :
    d.run none (a :: as) = replacement :: d.run none as := by
  rw [run_cons, h.stray t a ht hfit]
  rfl

theorem length_run_joined {t : τ} {a : α} (hfit : fits t a) {as : List α}
    (hrest : ∀ t', d.Holds t' → (d.run (some t') as).length ≤ (d.run none as).length + 1) :
    (d.run (some t) (a :: as)).length ≤ (d.run none as).length + 1 := by
  rw [run_cons]
  rcases h.joined t a hfit with ⟨c, hstep⟩ | ⟨t', hstep⟩
  · apply Nat.le_of_eq
    rw [hstep, List.length_append, List.length_singleton, Nat.add_comm]
  · rw [hstep, List.nil_append]
    exact hrest t' ⟨some t, a, congrArg Prod.snd hstep⟩

theorem length_run_some_le {t : τ} (ht : d.Holds t) (as : List α) :
    (d.run (some t) as).length ≤ (d.run none as).length + 1 := by
  induction as generalizing t with
  | nil =>
    apply Nat.le_of_eq
    rw [run_nil, run_nil, h.finish_none, h.finish_some]
    rfl
  | cons a as ih =>
    by_cases hfit : fits t a
    · rw [h.run_stray ht hfit, List.length_cons]
      exact Nat.le_succ_of_le (h.length_run_joined hfit fun _ => ih)
    · apply Nat.le_of_eq
      rw [h.run_broken hfit, h.finish_some, List.length_append, List.length_singleton, Nat.add_comm]

theorem run_some_eq_iff {t : τ} (ht : d.Holds t) (bs : List α) :
    d.run (some t) bs = d.finish (some t) ++ d.run none bs ↔
      ∀ b rest, bs = b :: rest → ¬fits t b := by
  cases bs with
  | nil =>
    rw [run_nil, run_nil, h.finish_none, List.append_nil]
    exact iff_of_true rfl fun _ _ heq => absurd heq.symm (List.cons_ne_nil _ _)
  | cons b rest =>
    by_cases hfit : fits t b
    · refine iff_of_false ?_ fun hall => hall b rest rfl hfit
      intro heq
      have hshort := h.length_run_joined hfit fun _ ht' => h.length_run_some_le ht' rest
      rw [heq, h.run_stray ht hfit, h.finish_some, List.length_append, List.length_cons,
        List.length_cons] at hshort
      omega
    · refine iff_of_true (h.run_broken hfit rest) ?_
      rintro b' rest' ⟨rfl, rfl⟩
      exact hfit

/-- The decoded pieces give the decoded whole exactly if no unit after the cut fits. -/
theorem run_append_iff (as bs : List α) :
    d.run none (as ++ bs) = d.run none as ++ d.run none bs ↔
      ∀ t b rest, d.reached none as = some t → bs = b :: rest → ¬fits t b := by
  rw [run_append, d.run_eq none as, List.append_assoc, List.append_cancel_left_eq]
  cases hreached : d.reached none as with
  | none =>
    rw [h.finish_none, List.nil_append]
    exact iff_of_true rfl fun _ _ _ heq => absurd heq.symm (Option.some_ne_none _)
  | some t =>
    rw [h.run_some_eq_iff (holds_reached hreached)]
    constructor
    · rintro hall _ b rest ⟨⟩ hbs
      exact hall b rest hbs
    · intro hall b rest hbs
      exact hall t b rest rfl hbs

end Replaces

end Decoder

namespace Utf16

/-- A low surrogate completes any high one. -/
def Fits (_ u : CodeUnit .word) : Prop := isLow u = true

theorem isHigh_of_isLow {u : CodeUnit .word} (h : isLow u = true) : isHigh u = false := by
  unfold isLow isHigh at *
  grind

theorem start_of_isLow {u : CodeUnit .word} (h : isLow u = true) : start u = ([replacement], none) := by
  unfold start
  rw [isHigh_of_isLow h, h]
  rfl

theorem replaces : decoder.Replaces Fits := by
  refine ⟨rfl, fun _ => rfl, ?_, ?_, ?_⟩
  · intro t u hfit
    exact if_neg hfit
  · intro t u hfit
    exact .inl ⟨_, if_pos hfit⟩
  · intro t u _ hfit
    exact start_of_isLow hfit

theorem start_snd (u : CodeUnit .word) : (start u).2 = if isHigh u then some u else none := by
  unfold start
  split
  · rfl
  · split <;> rfl

theorem step_snd (s : State) (u : CodeUnit .word) :
    (step s u).2 = if isHigh u then some u else none := by
  cases s with
  | none => exact start_snd u
  | some h =>
    unfold step
    by_cases hlow : isLow u = true
    · simp only [if_pos hlow, isHigh_of_isLow hlow]
      rfl
    · simp only [if_neg hlow]
      exact start_snd u

end Utf16

namespace Utf8

def Fits (p : Pending) (b : CodeUnit .byte) : Prop := p.low ≤ b.toNat ∧ b.toNat ≤ p.high

def IsContinuation (b : CodeUnit .byte) : Prop := 0x80 ≤ b.toNat ∧ b.toNat ≤ 0xbf

def Pending.Narrow (p : Pending) : Prop := 0x80 ≤ p.low ∧ p.high ≤ 0xbf

theorem start_narrow {b : Nat} {p : Pending} (h : (start b).2 = some p) : p.Narrow := by
  unfold start at h
  repeat' split at h
  all_goals cases h
  all_goals simp [Pending.Narrow]

theorem holds_narrow {p : Pending} (h : decoder.Holds p) : p.Narrow := by
  obtain ⟨s, b, hstep⟩ := h
  cases s with
  | none => exact start_narrow hstep
  | some q =>
    change (step (some q) b).2 = some p at hstep
    unfold step at hstep
    by_cases hfit : q.low ≤ b.toNat ∧ b.toNat ≤ q.high
    · simp only [if_pos hfit] at hstep
      split at hstep
      · cases hstep
      · obtain rfl := Option.some.inj hstep
        exact ⟨Nat.le_refl _, Nat.le_refl _⟩
    · simp only [if_neg hfit] at hstep
      exact start_narrow hstep

theorem Fits.isContinuation {p : Pending} {b : CodeUnit .byte} (h : Fits p b)
    (hp : decoder.Holds p) : IsContinuation b := by
  obtain ⟨hlow, hhigh⟩ := holds_narrow hp
  exact ⟨Nat.le_trans hlow h.1, Nat.le_trans h.2 hhigh⟩

theorem start_of_isContinuation {b : CodeUnit .byte} (h : IsContinuation b) :
    start b.toNat = ([replacement], none) := by
  unfold start
  rw [if_neg (Nat.not_lt_of_le h.1), if_pos (Nat.lt_of_le_of_lt h.2 (by decide))]

theorem replaces : decoder.Replaces Fits := by
  refine ⟨rfl, fun _ => rfl, ?_, ?_, ?_⟩
  · intro p b hfit
    exact if_neg hfit
  · intro p b hfit
    have hstep : decoder.step (some p) b = _ := if_pos hfit
    rw [hstep]
    by_cases hlast : p.missing ≤ 1
    · exact .inl ⟨_, if_pos hlast⟩
    · exact .inr ⟨_, if_neg hlast⟩
  · intro p b hp hfit
    exact start_of_isContinuation (hfit.isContinuation hp)

end Utf8

/-- The second piece begins with a unit that fits what the first piece leaves unfinished. -/
def Severed : {w : Width} → List (CodeUnit w) → List (CodeUnit w) → Prop
  | .byte, as, bs => ∃ p b rest,
      Utf8.decoder.reached none as = some p ∧ bs = b :: rest ∧ Utf8.Fits p b
  | .word, as, bs => ∃ h u rest,
      Utf16.decoder.reached none as = some h ∧ bs = u :: rest ∧ Utf16.Fits h u

theorem decode_append_iff {w : Width} (as bs : List (CodeUnit w)) :
    decode w (as ++ bs) = decode w as ++ decode w bs ↔ ¬Severed as bs := by
  cases w with
  | byte =>
    refine (Utf8.replaces.run_append_iff as bs).trans ?_
    simp only [Severed, not_exists, not_and]
  | word =>
    refine (Utf16.replaces.run_append_iff as bs).trans ?_
    simp only [Severed, not_exists, not_and]

theorem decodeText_append_iff {w : Width} (as bs : List (CodeUnit w)) :
    decodeText (as ++ bs) = decodeText as ++ decodeText bs ↔ ¬Severed as bs := by
  unfold decodeText
  rw [← String.ofList_append, String.ofList_inj, decode_append_iff]

end LexBase
