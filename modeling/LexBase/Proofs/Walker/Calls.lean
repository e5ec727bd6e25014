import LexBase.Proofs.CodeMap.Valid
import LexBase.Proofs.Search
import LexBase.Walker

/-!
# The calls of a walker

A walker is on a map if it expects the entries and the slots that the map has and its walk ends at
a vacant slot. The entries ahead of it are then the rest of a tour. The next call takes the head
of the rest; a removal at the entry just produced rewinds by one slot and keeps the rest up to its
order, since entries only move to slots that are still ahead.
-/

namespace LexBase

set_option autoImplicit false

variable {w : Width} {V : Type} {c : Walker w} {m : CodeMap w V} {e : Entry w V}

namespace Walker

structure On (c : Walker w) (m : CodeMap w V) : Prop where
  valid : m.Valid
  expected_eq : c.expected = m.size
  span_eq : c.span = m.table.length
  based : m.table.Based c.start
  offset_le : c.offset ≤ c.span

def rest (c : Walker w) (m : CodeMap w V) : List (Entry w V) := m.table.tour c.start c.offset

theorem matchesMap_iff : c.matchesMap m = true ↔ m.size = c.expected ∧ m.capacity = c.span := by
  simp [matchesMap]

theorem On.matchesMap (h : c.On m) : c.matchesMap m = true :=
  matchesMap_iff.mpr ⟨h.expected_eq.symm, h.span_eq.symm⟩

theorem On.slotAt (h : c.On m) (o : Nat) : c.slotAt o = (c.start + o) % m.table.length := by
  rw [Walker.slotAt, h.span_eq]

theorem On.slot?_slotAt (h : c.On m) (o : Nat) :
    m.table.slot? (c.slotAt o) = m.table.onward? c.start o := by
  rw [h.slotAt, Table.onward?]

theorem vacancy_spec {t : Table w V} (ha : t.Aligned) (h : t.HasVacancy) :
    t.vacancy < t.length ∧ t.slot? t.vacancy = none := by
  obtain ⟨v, hv, hnone⟩ := h
  unfold Table.vacancy
  cases hf : firstSome (fun i => if (t.key i).isNull then some i else none) 0 t.length with
  | none =>
    have hall := firstSome_eq_none_iff.mp hf v hv
    simp [ha.slot?_eq_none_iff.mp hnone] at hall
  | some i =>
    obtain ⟨j, hj, hi, _⟩ := firstSome_eq_some_iff.mp hf
    rw [Nat.zero_add] at hi
    split at hi
    · next hnull =>
      obtain rfl := Option.some.inj hi
      exact ⟨hj, Table.slot?_of_null ((CodeUnit.isNull_iff _).mp hnull)⟩
    · simp at hi

theorem on_walker (h : m.Valid) : m.walker.On m := by
  obtain ⟨hlt, hnone⟩ := vacancy_spec h.table.aligned h.hasVacancy
  exact ⟨h, rfl, rfl, Table.based_past_vacant hlt hnone, Nat.zero_le _⟩

theorem rest_walker_perm (h : m.Valid) : (m.walker.rest m).Perm m.table.entries :=
  Table.tour_zero_perm (on_walker h).based.start_lt

theorem On.entryAt?_eq (h : c.On m) :
    c.entryAt? m = fun o => (m.table.onward? c.start o).map fun e => (o, e) := by
  funext o
  rw [entryAt?, h.slot?_slotAt]

theorem On.ahead?_none (h : c.On m) (ha : c.ahead? m = none) : c.rest m = [] := by
  rw [ahead?, h.entryAt?_eq, h.span_eq] at ha
  exact filterMap_eq_nil_of_firstSome ha

theorem On.ahead?_some (h : c.On m) {o : Nat} (ha : c.ahead? m = some (o, e)) :
    o < m.table.length ∧ m.table.onward? c.start o = some e ∧
      c.rest m = e :: m.table.tour c.start (o + 1) := by
  have hle := h.offset_le
  rw [ahead?, h.entryAt?_eq, h.span_eq] at ha
  rw [h.span_eq] at hle
  have hsum : c.offset + (m.table.length - c.offset) = m.table.length := Nat.add_sub_cancel' hle
  obtain ⟨hlt, he, hrest⟩ := filterMap_eq_cons_of_firstSome ha
  rw [hsum] at hlt hrest
  exact ⟨hlt, he, hrest⟩

def passed (c : Walker w) (current : Option Position) : Walker w :=
  { c with offset := c.span, nullVisited := true, current := current }

theorem On.next_entry (h : c.On m) {o : Nat} (ho : o < m.table.length)
    (current : Option Position) :
    ({ c with offset := o + 1, current := current } : Walker w).On m :=
  ⟨h.valid, h.expected_eq, h.span_eq, h.based, h.span_eq ▸ ho⟩

theorem On.passed (h : c.On m) (current : Option Position) : (c.passed current).On m :=
  ⟨h.valid, h.expected_eq, h.span_eq, h.based, Nat.le_refl _⟩

theorem On.rest_passed (h : c.On m) (current : Option Position) : (c.passed current).rest m = [] :=
  Table.tour_of_le (Nat.le_of_eq h.span_eq.symm)

theorem On.without_null (h : c.On m) (current : Option Position) :
    ({ c with current := current } : Walker w).On { m with nullValue := none } :=
  ⟨h.valid.with_null none, h.expected_eq, h.span_eq, h.based, h.offset_le⟩

section Next

variable [BEq V]

inductive At (c : Walker w) (m : CodeMap w V) : Entry w V → Prop where
  | slot {o : Nat} {e : Entry w V} :
      c.current = some (.slot o (c.slotAt o)) → c.offset = o + 1 →
      m.table.onward? c.start o = some e → At c m e
  | null {v : V} : c.current = some .null → m.presentNull = some v → At c m ⟨.null w, v⟩

inductive Nexts (c : Walker w) (m : CodeMap w V) :
    Except WalkError (Entry w V) × Walker w → Prop where
  | entry {e : Entry w V} {c' : Walker w} : c'.On m → c'.At m e → e.key ≠ .null w →
      c.rest m = e :: c'.rest m → c'.nullVisited = c.nullVisited → Nexts c m (.ok e, c')
  | null {v : V} {c' : Walker w} : c'.On m → c'.current = some .null →
      c.rest m = [] → c'.rest m = [] →
      c.nullVisited = false → m.presentNull = some v → c'.nullVisited = true →
      Nexts c m (.ok ⟨.null w, v⟩, c')
  | exhausted {c' : Walker w} : c'.On m → c'.current = none →
      c.rest m = [] → c'.rest m = [] →
      (c.nullVisited = true ∨ m.presentNull = none) → c'.nullVisited = true →
      Nexts c m (.error .exhausted, c')

theorem On.nexts (h : c.On m) : c.Nexts m (c.next m) := by
  unfold next
  rw [h.matchesMap]
  simp only [Bool.not_true, Bool.false_eq_true, if_false]
  cases ha : c.ahead? m with
  | some found =>
    obtain ⟨o, e⟩ := found
    obtain ⟨hlt, he, hrest⟩ := h.ahead?_some ha
    have hmem : e ∈ m.table.entries := Table.mem_entries.mpr ⟨_, he⟩
    exact .entry (h.next_entry hlt _) (.slot rfl rfl he) (h.valid.table.nonnull e hmem) hrest rfl
  | none =>
    have hrest := h.ahead?_none ha
    have hmax : max c.offset c.span = c.span := Nat.max_eq_right h.offset_le
    simp only [hmax]
    cases hv : c.nullVisited with
    | true => exact .exhausted (h.passed _) rfl hrest (h.rest_passed _) (Or.inl hv) rfl
    | false =>
      cases hn : m.presentNull with
      | some v => exact .null (h.passed _) rfl hrest (h.rest_passed _) hv hn rfl
      | none => exact .exhausted (h.passed _) rfl hrest (h.rest_passed _) (Or.inr hn) rfl

end Next

section Remove

variable [BEq V]

theorem On.remove_none (h : c.On m) (hc : c.current = none) :
    c.remove m = ⟨.error .invalidRemoval, { c with current := none }, m, none⟩ := by
  simp only [remove, h.matchesMap, hc, Bool.not_true, Bool.false_eq_true, if_false]

theorem On.remove_null (h : c.On m) (hc : c.current = some .null) :
    c.remove m =
      ⟨m.presentNull.elim (.error .invalidRemoval) .ok, { c with current := none },
        { m with nullValue := none }, none⟩ := by
  simp only [remove, h.matchesMap, hc, Bool.not_true, Bool.false_eq_true, if_false,
    CodeMap.clearNull]
  cases m.presentNull <;> rfl

def rewound (c : Walker w) (o : Nat) : Walker w :=
  { c with current := none, offset := o, expected := c.expected - 1 }

structure Takes (c : Walker w) (m : CodeMap w V) (o : Nat) (e : Entry w V) (t : Table w V) :
    Prop where
  on : (c.rewound o).On { m with table := t }
  perm : m.table.entries.Perm (e :: t.entries)
  rest_perm : ((c.rewound o).rest ({ m with table := t } : CodeMap w V)).Perm
    (m.table.tour c.start (o + 1))

theorem On.remove_slot (h : c.On m) {o : Nat} (hc : c.current = some (.slot o (c.slotAt o)))
    (ho : o < m.table.length) (he : m.table.onward? c.start o = some e) :
    ∃ t event, c.remove m = ⟨.ok e.value, c.rewound o, { m with table := t }, some event⟩ ∧
      c.Takes m o e t := by
  obtain ⟨t, event, hr, hvac, hvalid⟩ := h.valid.removeSlot_onward h.based ho he
  refine ⟨t, event, ?_, ?_, hvac.perm, ?_⟩
  · simp only [remove, h.matchesMap, hc, Bool.not_true, Bool.false_eq_true, if_false, h.slotAt, hr,
      rewound]
  · refine ⟨hvalid, ?_, h.span_eq.trans hvac.length_eq.symm, hvac.based, ?_⟩
    · have hcount := h.valid.table.counted
      have hexp := h.expected_eq
      rw [hvac.perm.length_eq, List.length_cons] at hcount
      change c.expected - 1 = t.count
      rw [hexp, CodeMap.size, hcount, hvac.valid.counted, Nat.add_sub_cancel]
    · change o ≤ c.span
      rw [h.span_eq]
      exact Nat.le_of_lt ho
  · have htour := Table.tour_perm_append [e] h.based.start_lt (Nat.le_of_lt ho)
      hvac.length_eq hvac.agree hvac.perm
    rw [Table.tour_of_some ho he] at htour
    exact htour.cons_inv.symm

end Remove

end Walker

end LexBase
