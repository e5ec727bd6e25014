import LexBase.CodeUnit
import LexBase.Search

/-!
# Tables

An open-addressing table of values under non-null keys. Keys and values stand in two arrays, index by
index; the null key marks a vacant slot. A key is looked for at its home slot and then at one slot after
the other, around the end, until the key or a vacant slot is met.
-/

namespace LexBase

set_option autoImplicit false

structure Entry (w : Width) (V : Type) where
  key : CodeUnit w
  value : V
deriving DecidableEq, Repr

structure Table (w : Width) (V : Type) where
  keys : Array (CodeUnit w)
  /-- Nothing is stored under a null key. -/
  values : Array (Option V)
  count : Nat

/-- Where a probe ends: at the key, or at the slot where the key would go. -/
inductive Spot where
  | held (index : Nat)
  | vacant (index : Nat)
deriving DecidableEq, Repr

/-- The slot where a key is looked for first. -/
def home {w : Width} (length : Nat) (key : CodeUnit w) : Nat := key.spread.toNat % length

/-- How many steps lead from one slot to another, going up and around. -/
def distance (length start stop : Nat) : Nat := (stop + length - start) % length

namespace Table

variable {w : Width} {V : Type}

def empty (length : Nat) : Table w V :=
  ⟨Array.replicate length (.null w), Array.replicate length none, 0⟩

def length (t : Table w V) : Nat := t.keys.size

def key (t : Table w V) (i : Nat) : CodeUnit w := t.keys.getD i (.null w)

def value? (t : Table w V) (i : Nat) : Option V := t.values.getD i none

/-- Key and value at a slot, if its key is not null. -/
def slot? (t : Table w V) (i : Nat) : Option (Entry w V) :=
  if (t.key i).isNull then none else (t.value? i).map fun v => ⟨t.key i, v⟩

def entries (t : Table w V) : List (Entry w V) := (List.range t.length).filterMap t.slot?

/-- What a probe for the key learns at one slot; nothing if another key is there. -/
def inspect (t : Table w V) (key : CodeUnit w) (i : Nat) : Option Spot :=
  if (t.key i).isNull then some (.vacant i)
  else if t.key i = key then some (.held i)
  else none

def probe (t : Table w V) (key : CodeUnit w) : Option Spot :=
  let start := home t.length key
  firstSome (fun j => t.inspect key ((start + j) % t.length)) 0 t.length

def find? (t : Table w V) (key : CodeUnit w) : Option V :=
  match t.probe key with
  | some (.held i) => t.value? i
  | _ => none

def contains (t : Table w V) (key : CodeUnit w) : Bool :=
  match t.probe key with
  | some (.held _) => true
  | _ => false

def store (t : Table w V) (i : Nat) (value : V) : Table w V :=
  { t with values := t.values.setIfInBounds i (some value) }

/-- Writes a key and what is stored under it. -/
def fill (t : Table w V) (i : Nat) (key : CodeUnit w) (value : Option V) : Table w V :=
  let ⟨keys, values, count⟩ := t
  ⟨keys.setIfInBounds i key, values.setIfInBounds i value, count⟩

def occupy (t : Table w V) (i : Nat) (e : Entry w V) : Table w V :=
  let ⟨keys, values, count⟩ := t.fill i e.key (some e.value)
  ⟨keys, values, count + 1⟩

/-- The first vacant slot; there always is one in a table below its threshold. -/
def vacancy (t : Table w V) : Nat :=
  (firstSome (fun i => if (t.key i).isNull then some i else none) 0 t.length).getD 0

section Reading

@[simp] theorem length_empty (n : Nat) : (empty n : Table w V).length = n := by
  simp [empty, length]

@[simp] theorem key_empty (n i : Nat) : (empty n : Table w V).key i = .null w := by
  by_cases h : i < n <;> simp [empty, key, h]

@[simp] theorem slot?_empty (n i : Nat) : (empty n : Table w V).slot? i = none := by
  simp [slot?]

variable {t : Table w V} {i : Nat}

theorem key_eq_null_of_le (h : t.length ≤ i) : t.key i = .null w := by
  rw [key, Array.getD_eq_getD_getElem?, Array.getElem?_eq_none h, Option.getD_none]

theorem slot?_of_null (h : t.key i = .null w) : t.slot? i = none := by
  rw [slot?, if_pos ((CodeUnit.isNull_iff _).mpr h)]

theorem slot?_eq_none_of_le (h : t.length ≤ i) : t.slot? i = none :=
  slot?_of_null (key_eq_null_of_le h)

theorem slot?_eq_some_iff {e : Entry w V} : t.slot? i = some e ↔
    e.key ≠ .null w ∧ t.key i = e.key ∧ t.value? i = some e.value := by
  obtain ⟨key, value⟩ := e
  unfold slot?
  by_cases hnull : t.key i = .null w
  · rw [if_pos ((CodeUnit.isNull_iff _).mpr hnull), hnull]
    constructor
    · intro h
      cases h
    · rintro ⟨hk, heq, _⟩
      exact absurd heq.symm hk
  · rw [if_neg fun h => hnull ((CodeUnit.isNull_iff _).mp h)]
    simp only [Option.map_eq_some_iff, Entry.mk.injEq]
    constructor
    · rintro ⟨v, hv, rfl, rfl⟩
      exact ⟨hnull, rfl, hv⟩
    · rintro ⟨_, hk, hv⟩
      exact ⟨value, hv, hk, rfl⟩

end Reading

section Writing

variable {t : Table w V} {i : Nat}

@[simp] theorem length_store (t : Table w V) (i : Nat) (value : V) :
    (t.store i value).length = t.length := rfl

@[simp] theorem length_fill (t : Table w V) (i : Nat) (key : CodeUnit w) (value : Option V) :
    (t.fill i key value).length = t.length := by
  simp [fill, length]

@[simp] theorem length_occupy (t : Table w V) (i : Nat) (e : Entry w V) :
    (t.occupy i e).length = t.length :=
  length_fill t i e.key (some e.value)

theorem key_fill_self (hi : i < t.length) (key : CodeUnit w) (value : Option V) :
    (t.fill i key value).key i = key := by
  have hs : i < t.keys.size := hi
  simp [fill, Table.key, Array.getD_eq_getD_getElem?, hs]

theorem value?_fill_self (hi : i < t.values.size) (key : CodeUnit w) (value : Option V) :
    (t.fill i key value).value? i = value := by
  simp [fill, value?, Array.getD_eq_getD_getElem?, hi]

theorem value?_store_self (hi : i < t.values.size) (value : V) :
    (t.store i value).value? i = some value := by
  simp [store, value?, Array.getD_eq_getD_getElem?, hi]

section Elsewhere

variable {j : Nat} (hij : i ≠ j)
include hij

theorem key_fill_of_ne (key : CodeUnit w) (value : Option V) :
    (t.fill i key value).key j = t.key j := by
  simp [fill, Table.key, Array.getD_eq_getD_getElem?, hij]

theorem value?_fill_of_ne (key : CodeUnit w) (value : Option V) :
    (t.fill i key value).value? j = t.value? j := by
  simp [fill, value?, Array.getD_eq_getD_getElem?, hij]

theorem value?_store_of_ne (value : V) : (t.store i value).value? j = t.value? j := by
  simp [store, value?, Array.getD_eq_getD_getElem?, hij]

/-- Other slots do not see a write, wherever it goes. -/
theorem slot?_fill_of_ne (key : CodeUnit w) (value : Option V) :
    (t.fill i key value).slot? j = t.slot? j := by
  unfold slot?
  rw [key_fill_of_ne hij, value?_fill_of_ne hij]

theorem slot?_store_of_ne (value : V) : (t.store i value).slot? j = t.slot? j := by
  unfold slot?
  rw [value?_store_of_ne hij]
  rfl

end Elsewhere

end Writing

end Table

end LexBase
