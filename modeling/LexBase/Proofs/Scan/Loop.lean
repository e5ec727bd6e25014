import LexBase.Proofs.Scan.Range
import LexBase.Scan.Loop
import Mathlib.Order.Bounds.Basic

/-!
# Scan loops in both directions

The scan loop reads on while the unit ahead passes a test. It never meets a fault and always ends: forward
at the first index whose unit fails the test, or at the end of the buffer; backward just after the last
unit that fails it, or at the start. The text of what was read is the same from either side.
-/

namespace LexBase

set_option autoImplicit false

section Loops

variable {C : Type} {w : Width} [Reader C w] {test : CodeUnit w → Bool} {c c' : C}
  {read run : List (CodeUnit w)}

/-- A run of the scan loop that has no bound, meets no fault and comes to its end. -/
inductive Scans (test : CodeUnit w → Bool) : C → List (CodeUnit w) → C → Prop where
  | atEnd {c : C} : Reader.atEnd c = true → Scans test c [] c
  | fails {c : C} {u : CodeUnit w} :
      Reader.atEnd c = false → Reader.peek c = .ok u → test u = false → Scans test c [] c
  | reads {c c' c'' : C} {u v : CodeUnit w} {us : List (CodeUnit w)} :
      Reader.atEnd c = false → Reader.peek c = .ok u → test u = true →
      Reader.next.on c = (.ok v, c') → Scans test c' us c'' → Scans test c (v :: us) c''

/-- A bound beyond the number of units read is never felt. -/
theorem Scans.scanUpTo_eq (h : Scans test c read c') {limit : Nat} (hlt : read.length < limit) :
    scanUpTo test limit c = ⟨read, c', none⟩ := by
  induction h generalizing limit with
  | atEnd hend =>
    cases limit with
    | zero => exact absurd hlt (Nat.not_lt_zero _)
    | succ limit => simp only [scanUpTo, hend, if_true]
  | fails hmore hpeek htest =>
    cases limit with
    | zero => exact absurd hlt (Nat.not_lt_zero _)
    | succ limit => simp only [scanUpTo, hmore, hpeek, htest, Bool.false_eq_true, if_false]
  | reads hmore hpeek htest hnext _ ih =>
    cases limit with
    | zero => exact absurd hlt (Nat.not_lt_zero _)
    | succ limit =>
      have hrest := ih (Nat.lt_of_succ_lt_succ hlt)
      simp only [scanUpTo, hmore, hpeek, htest, hnext, hrest, Bool.false_eq_true, if_false, if_true]

/-- A scan that marks its start, reads `read` and stops at `c'`; `run` are the same units in the order of
the buffer. -/
structure Covers (test : CodeUnit w → Bool) (c c' : C) (read run : List (CodeUnit w)) : Prop where
  scans : Scans test (Reader.setMark c) read c'
  scanWhile_eq : scanWhile test (Reader.setMark c) = ⟨read, c', none⟩
  mark_eq : Reader.mark c' = Reader.position c
  moved_iff : Reader.moved c' = true ↔ Reader.position c' ≠ Reader.position c
  units_eq : Reader.units c' (Reader.position c) (Reader.position c') = .ok run
  text_eq : Reader.text c' (Reader.position c) (Reader.position c') = .ok (decodeText run)
  scanLexeme_eq : scanLexeme test c =
    (.ok (if Reader.position c' = Reader.position c then none
      else some ⟨Reader.position c, Reader.position c', decodeText run⟩), c')

theorem Scans.covers (h : Scans test (Reader.setMark c) read c')
    (hlength : read.length ≤ Reader.length (Reader.setMark c))
    (hmark : Reader.mark c' = Reader.position c)
    (hmoved : Reader.moved c' = true ↔ Reader.position c' ≠ Reader.position c)
    (hunits : Reader.units c' (Reader.position c) (Reader.position c') = .ok run)
    (htext : Reader.text c' (Reader.position c) (Reader.position c') = .ok (decodeText run)) :
    Covers test c c' read run := by
  have hscan : scanWhile test (Reader.setMark c) = ⟨read, c', none⟩ :=
    h.scanUpTo_eq (Nat.lt_succ_of_le hlength)
  refine ⟨h, hscan, hmark, hmoved, hunits, htext, ?_⟩
  unfold scanLexeme
  rw [hscan]
  by_cases hstay : Reader.position c' = Reader.position c
  · have hstill : ¬Reader.moved c' = true := fun hm => hmoved.mp hm hstay
    simp only [if_neg hstill, if_pos hstay]
  · simp only [if_pos (hmoved.mpr hstay), if_neg hstay, htext]
    rfl

end Loops

variable {w : Width} {test : CodeUnit w → Bool}

namespace BufferReader

variable {c : BufferReader w}

section Directions

theorem eq_ok_of_toOption {α : Type} {r : Except Fault α} {a : α} (h : r.toOption = some a) :
    r = .ok a := by
  cases r with
  | error f => cases h
  | ok b => exact congrArg Except.ok (Option.some.inj h)

variable {u : CodeUnit w} {p : Nat}

theorem peek_eq (hu : c.buffer[c.position]? = some u) : Reader.peek c = .ok u := by
  apply eq_ok_of_toOption
  rw [← hu, ← unit?_natCast, ← target_zero]
  exact c.toOption_unitBy 0

theorem next_eq (hu : c.buffer[c.position]? = some u) :
    next.on c = (.ok u, c.placed (c.position + 1)) := by
  have hdue : c.stepDue c.position (c.position + 1) = some (u, c.placed (c.position + 1)) := by
    unfold stepDue
    rw [unit?_natCast, hu]
    rfl
  exact (hdue ▸ c.next_settles).eq_of_due

theorem atEnd_of_lt (h : c.position < c.length) : Reader.atEnd c = false := by
  rw [atEnd_eq, decide_eq_false (Nat.not_le_of_lt h)]

theorem atEnd_backward : Reader.atEnd (Backward.mk c) = (c.position == 0) := rfl

theorem atEnd_backward_of_succ (h : c.position = p + 1) : Reader.atEnd (Backward.mk c) = false := by
  rw [atEnd_backward, h]
  rfl

theorem peek_backward_eq (hp : c.position = p + 1) (hu : c.buffer[p]? = some u) :
    Reader.peek (Backward.mk c) = .ok u := by
  have hplace : (c.position : Int) - 1 - (0 : Int64).toInt = p := by
    rw [Int64.toInt_zero]
    omega
  apply eq_ok_of_toOption
  refine (c.toOption_peekBackBy 0).trans ?_
  rw [hplace, unit?_natCast, hu]

theorem next_backward_eq (hpos : c.position ≤ c.length) (hp : c.position = p + 1)
    (hu : c.buffer[p]? = some u) :
    Reader.next.on (Backward.mk c) = (.ok u, ⟨c.placed p⟩) := by
  have hplace : (c.position : Int) - 1 = p := by omega
  have hdue : c.stepDue (c.position - 1) (c.position - 1) = some (u, c.placed p) := by
    unfold stepDue
    rw [hplace, Nat.sub_eq_of_eq_add hp, unit?_natCast, hu]
    rfl
  exact congrArg (fun r => (r.1, Backward.mk r.2)) (hdue ▸ c.back_settles hpos).eq_of_due

end Directions

theorem exists_unit {i : Nat} (h : i < c.length) : ∃ u, c.buffer[i]? = some u :=
  ⟨c.buffer[i], Array.getElem?_eq_getElem h⟩

section Forward

/-- The indices where a scan forward may stop. -/
def stopsAhead (c : BufferReader w) (test : CodeUnit w → Bool) : Set Nat :=
  {q | c.position ≤ q ∧ (q = c.length ∨ ∃ u, c.buffer[q]? = some u ∧ test u = false)}

structure EndsAhead (c : BufferReader w) (test : CodeUnit w → Bool) (q : Nat) : Prop where
  least : IsLeast (c.stopsAhead test) q
  scans : Scans test c (c.between c.position q) (c.placed q)

theorem endsAhead_here (hstop : c.position ∈ c.stopsAhead test) (hscan : Scans test c [] c) :
    c.EndsAhead test c.position := by
  refine ⟨⟨hstop, fun i hi => hi.1⟩, ?_⟩
  rw [between_self, placed_self]
  exact hscan

theorem EndsAhead.step {u : CodeUnit w} {q : Nat} (hu : c.buffer[c.position]? = some u)
    (htest : test u = true) (h : (c.placed (c.position + 1)).EndsAhead test q) :
    c.EndsAhead test q := by
  obtain ⟨⟨⟨hq, hstop⟩, hleast⟩, hscan⟩ := h
  change c.position + 1 ≤ q at hq
  have hlt : c.position < c.length := (Array.getElem?_eq_some_iff.mp hu).1
  refine ⟨⟨⟨Nat.le_of_succ_le hq, hstop⟩, ?_⟩, ?_⟩
  · rintro i ⟨hi, hstops⟩
    refine hleast ⟨Nat.lt_of_le_of_ne hi ?_, hstops⟩
    rintro rfl
    rcases hstops with hend | ⟨v, hv, hfail⟩
    · exact Nat.ne_of_lt hlt hend
    · rw [Option.some.inj (hu.symm.trans hv), hfail] at htest
      cases htest
  · rw [placed_placed (Nat.succ_ne_self _) (Nat.ne_of_gt hq)] at hscan
    rw [between_eq_cons hu hq]
    exact .reads (atEnd_of_lt hlt) (peek_eq hu) htest (next_eq hu) hscan

theorem exists_endsAhead (test : CodeUnit w → Bool) (hpos : c.position ≤ c.length) :
    ∃ q, c.EndsAhead test q := by
  generalize hn : c.length - c.position = n
  induction n generalizing c with
  | zero =>
    have hend : c.position = c.length := by omega
    refine ⟨c.position, endsAhead_here ⟨Nat.le_refl _, .inl hend⟩ (.atEnd ?_)⟩
    rw [atEnd_eq, hend, decide_eq_true (Nat.le_refl _)]
  | succ n ih =>
    have hlt : c.position < c.length := by omega
    obtain ⟨u, hu⟩ := exists_unit hlt
    cases htest : test u with
    | false =>
      exact ⟨c.position, endsAhead_here ⟨Nat.le_refl _, .inr ⟨u, hu, htest⟩⟩
        (.fails (atEnd_of_lt hlt) (peek_eq hu) htest)⟩
    | true =>
      have hrest : c.length - (c.position + 1) = n := by omega
      obtain ⟨q, hq⟩ := ih (c := c.placed (c.position + 1)) hlt hrest
      exact ⟨q, hq.step hu htest⟩

end Forward

section Backwards

def stopsBehind (c : BufferReader w) (test : CodeUnit w → Bool) : Set Nat :=
  {q | q ≤ c.position ∧ (q = 0 ∨ ∃ u, c.buffer[q - 1]? = some u ∧ test u = false)}

structure EndsBehind (c : BufferReader w) (test : CodeUnit w → Bool) (q : Nat) : Prop where
  greatest : IsGreatest (c.stopsBehind test) q
  scans : Scans test (Backward.mk c) (c.between q c.position).reverse ⟨c.placed q⟩

theorem endsBehind_here (hstop : c.position ∈ c.stopsBehind test)
    (hscan : Scans test (Backward.mk c) [] ⟨c⟩) : c.EndsBehind test c.position := by
  refine ⟨⟨hstop, fun i hi => hi.1⟩, ?_⟩
  rw [between_self, placed_self]
  exact hscan

theorem EndsBehind.step {u : CodeUnit w} {p q : Nat} (hpos : c.position ≤ c.length)
    (hp : c.position = p + 1) (hu : c.buffer[p]? = some u) (htest : test u = true)
    (h : (c.placed p).EndsBehind test q) : c.EndsBehind test q := by
  obtain ⟨⟨⟨hq, hstop⟩, hgreatest⟩, hscan⟩ := h
  change q ≤ p at hq
  refine ⟨⟨⟨by omega, hstop⟩, ?_⟩, ?_⟩
  · rintro i ⟨hi, hstops⟩
    have hle : i ≤ p + 1 := hp ▸ hi
    refine hgreatest ⟨Nat.le_of_lt_succ (Nat.lt_of_le_of_ne hle ?_), hstops⟩
    rintro rfl
    rcases hstops with hend | ⟨v, hv, hfail⟩
    · exact Nat.succ_ne_zero p hend
    · rw [Option.some.inj (hu.symm.trans hv), hfail] at htest
      cases htest
  · rw [placed_placed (by omega) (by omega)] at hscan
    rw [hp, between_eq_concat hu hq, List.reverse_append]
    exact .reads (atEnd_backward_of_succ hp) (peek_backward_eq hp hu) htest (next_backward_eq hpos hp hu) hscan

theorem exists_endsBehind (test : CodeUnit w → Bool) (hpos : c.position ≤ c.length) :
    ∃ q, c.EndsBehind test q := by
  generalize hn : c.position = n
  induction n generalizing c with
  | zero =>
    refine ⟨c.position, endsBehind_here ⟨Nat.le_refl _, .inl hn⟩ (.atEnd ?_)⟩
    rw [atEnd_backward, hn]
    rfl
  | succ n ih =>
    have hlt : n < c.length := by omega
    obtain ⟨u, hu⟩ := exists_unit hlt
    cases htest : test u with
    | false =>
      have hbefore : c.position - 1 = n := by omega
      exact ⟨c.position, endsBehind_here ⟨Nat.le_refl _, .inr ⟨u, hbefore ▸ hu, htest⟩⟩
        (.fails (atEnd_backward_of_succ hn) (peek_backward_eq hn hu) htest)⟩
    | true =>
      obtain ⟨q, hq⟩ := ih (c := c.placed n) (Nat.le_of_lt hlt) rfl
      exact ⟨q, hq.step hpos hn hu htest⟩

end Backwards

theorem EndsAhead.covers {q : Nat} (h : c.marked.EndsAhead test q) :
    Covers test c (c.marked.placed q) (c.between c.position q) (c.between c.position q) := by
  obtain ⟨hq, hstop⟩ := h.least.1
  have hle : q ≤ c.length := by
    rcases hstop with hend | ⟨u, hu, _⟩
    · exact Nat.le_of_eq hend
    · exact Nat.le_of_lt (Array.getElem?_eq_some_iff.mp hu).1
  have hunits : (c.marked.placed q).units c.position q = .ok (c.between c.position q) :=
    units_eq_between (c := c.marked.placed q) hq hle
  refine h.scans.covers (length_between _ _) rfl ?_ hunits ?_
  · exact bne_iff_ne
  · exact congrArg (Except.map decodeText) hunits

theorem EndsBehind.covers {q : Nat} (hpos : c.position ≤ c.length)
    (h : c.marked.EndsBehind test q) :
    Covers test (Backward.mk c) ⟨c.marked.placed q⟩ (c.between q c.position).reverse
      (c.between q c.position) := by
  obtain ⟨hq, hstop⟩ := h.greatest.1
  have hunits : (c.marked.placed q).units q c.position = .ok (c.between q c.position) :=
    units_eq_between (c := c.marked.placed q) hq hpos
  refine h.scans.covers ?_ rfl ?_ hunits ?_
  · rw [List.length_reverse]
    exact length_between _ _
  · exact bne_iff_ne
  · exact congrArg (Except.map decodeText) hunits

/-- The longest run of units around a place that pass the test. -/
structure MaximalRun (c : BufferReader w) (test : CodeUnit w → Bool) (s e : Nat) : Prop where
  le : s ≤ e
  passes : ∀ i u, s ≤ i → i < e → c.buffer[i]? = some u → test u = true
  starts : s = 0 ∨ ∃ u, c.buffer[s - 1]? = some u ∧ test u = false
  stops : e = c.length ∨ ∃ u, c.buffer[e]? = some u ∧ test u = false

namespace MaximalRun

variable {s e : Nat} (h : c.MaximalRun test s e)

include h

theorem le_length : e ≤ c.length := by
  rcases h.stops with hend | ⟨u, hu, _⟩
  · exact Nat.le_of_eq hend
  · exact Nat.le_of_lt (Array.getElem?_eq_some_iff.mp hu).1

theorem no_stop {i : Nat} {u : CodeUnit w} (hs : s ≤ i) (he : i < e) (hu : c.buffer[i]? = some u) :
    test u ≠ false := by
  rw [h.passes i u hs he hu]
  exact Bool.false_ne_true.symm

theorem endsAhead : (c.placed s).marked.EndsAhead test e := by
  have hle := h.le
  have hlength := h.le_length
  obtain ⟨q, hq⟩ := exists_endsAhead (c := (c.placed s).marked) test (Nat.le_trans hle hlength)
  have hleast : IsLeast ((c.placed s).marked.stopsAhead test) e := by
    refine ⟨⟨hle, h.stops⟩, ?_⟩
    rintro i ⟨hi, hstop⟩
    apply Nat.le_of_not_lt
    intro hlt
    rcases hstop with hend | ⟨u, hu, hfail⟩
    · exact Nat.not_lt_of_le hlength (hend ▸ hlt)
    · exact h.no_stop hi hlt hu hfail
  exact hq.least.unique hleast ▸ hq

theorem endsBehind : (c.placed e).marked.EndsBehind test s := by
  have hlength := h.le_length
  obtain ⟨q, hq⟩ := exists_endsBehind (c := (c.placed e).marked) test hlength
  have hgreatest : IsGreatest ((c.placed e).marked.stopsBehind test) s := by
    refine ⟨⟨h.le, h.starts⟩, ?_⟩
    rintro i ⟨hi, hstop⟩
    change i ≤ e at hi
    apply Nat.le_of_not_lt
    intro hlt
    rcases hstop with hzero | ⟨u, hu, hfail⟩
    · exact Nat.not_lt_zero s (hzero ▸ hlt)
    · exact h.no_stop (Nat.le_sub_one_of_lt hlt) (by omega) hu hfail
  exact hq.greatest.unique hgreatest ▸ hq

end MaximalRun

theorem drain_forward (hpos : c.position ≤ c.length) :
    drain c = ⟨c.between c.position c.length, c.placed c.length, none⟩ := by
  obtain ⟨q, hq⟩ := exists_endsAhead (fun _ => true) hpos
  obtain rfl : q = c.length := by
    rcases hq.least.1.2 with hend | ⟨u, _, hfail⟩
    · exact hend
    · cases hfail
  exact hq.scans.scanUpTo_eq (Nat.lt_succ_of_le (length_between _ _))

theorem drain_backward (hpos : c.position ≤ c.length) :
    drain (Backward.mk c) = ⟨(c.between 0 c.position).reverse, ⟨c.placed 0⟩, none⟩ := by
  obtain ⟨q, hq⟩ := exists_endsBehind (fun _ => true) hpos
  obtain rfl : q = 0 := by
    rcases hq.greatest.1.2 with hzero | ⟨u, _, hfail⟩
    · exact hzero
    · cases hfail
  refine hq.scans.scanUpTo_eq (Nat.lt_succ_of_le ?_)
  rw [List.length_reverse]
  exact length_between _ _

/-- The scan from a place in either direction, and the two scans over a run from its ends. -/
structure ScansBothWays (c : BufferReader w) (test : CodeUnit w → Bool) : Prop where
  ahead : ∃ q, IsLeast (c.stopsAhead test) q ∧
    Covers test c (c.marked.placed q) (c.between c.position q) (c.between c.position q)
  behind : ∃ q, IsGreatest (c.stopsBehind test) q ∧
    Covers test (Backward.mk c) ⟨c.marked.placed q⟩ (c.between q c.position).reverse
      (c.between q c.position)
  ends : ∀ s e, c.MaximalRun test s e →
    Covers test (c.placed s) ((c.placed s).marked.placed e) (c.between s e) (c.between s e) ∧
      Covers test (Backward.mk (c.placed e)) ⟨(c.placed e).marked.placed s⟩ (c.between s e).reverse
        (c.between s e)
  drains : drain c = ⟨c.between c.position c.length, c.placed c.length, none⟩ ∧
    drain (Backward.mk c) = ⟨(c.between 0 c.position).reverse, ⟨c.placed 0⟩, none⟩

theorem scansBothWays (hpos : c.position ≤ c.length) (test : CodeUnit w → Bool) :
    c.ScansBothWays test := by
  refine ⟨?_, ?_, ?_, drain_forward hpos, drain_backward hpos⟩
  · obtain ⟨q, hq⟩ := exists_endsAhead (c := c.marked) test hpos
    exact ⟨q, hq.least, hq.covers⟩
  · obtain ⟨q, hq⟩ := exists_endsBehind (c := c.marked) test hpos
    exact ⟨q, hq.greatest, hq.covers hpos⟩
  · intro s e hrun
    exact ⟨EndsAhead.covers (c := c.placed s) hrun.endsAhead,
      EndsBehind.covers (c := c.placed e) hrun.le_length hrun.endsBehind⟩

/-- Two digits between letters, and the reader between the digits. -/
def betweenDigits : BufferReader .byte := ⟨#[97, 49, 50, 98], 2, 0, true⟩

def isDigit (u : CodeUnit .byte) : Bool := 48 ≤ u.toNat && u.toNat ≤ 57

theorem betweenDigits_scansBothWays : betweenDigits.position ≤ betweenDigits.length ∧
    betweenDigits.MaximalRun isDigit 1 3 ∧
    Covers isDigit (betweenDigits.placed 1) ((betweenDigits.placed 1).marked.placed 3)
      [49, 50] [49, 50] ∧
    Covers isDigit (Backward.mk (betweenDigits.placed 3)) ⟨(betweenDigits.placed 3).marked.placed 1⟩
      [50, 49] [49, 50] := by
  have hrun : betweenDigits.MaximalRun isDigit 1 3 := by
    refine ⟨by decide, ?_, .inr ⟨97, rfl, rfl⟩, .inr ⟨98, rfl, rfl⟩⟩
    intro i u hs he hu
    obtain rfl | rfl : i = 1 ∨ i = 2 := by omega
    · obtain rfl := Option.some.inj hu
      rfl
    · obtain rfl := Option.some.inj hu
      rfl
  exact ⟨by decide, hrun, (scansBothWays (by decide) isDigit).ends 1 3 hrun⟩

end BufferReader

end LexBase
