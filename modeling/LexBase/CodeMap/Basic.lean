import LexBase.Sizing
import LexBase.Table.Event
import LexBase.Table.Rehash
import LexBase.Table.Remove

/-!
# Maps keyed by code units

A map answers an absent key with its default. Non-null keys live in a table; the null key has a slot of
its own beside it, is not counted, and is present only while its value differs from the default.
-/

namespace LexBase

set_option autoImplicit false

structure CodeMap (w : Width) (V : Type) where
  table : Table w V
  sizing : Sizing
  nullValue : Option V
  default : V

structure Insertion (w : Width) (V : Type) where
  previous : Option V
  map : CodeMap w V
  growth : Option TableEvent

namespace CodeMap

variable {w : Width} {V : Type}

def withSizing (sizing : Sizing) (default : V) : CodeMap w V :=
  ⟨.empty sizing.length, sizing, none, default⟩

/-- The map for sixteen entries at three quarters full. -/
def empty (default : V) : CodeMap w V :=
  withSizing (.forTarget Sizing.defaultCapacity .standard w.domain) default

def withCapacity (capacity : Nat) (loadFactor : Single) (default : V) :
    Except ConfigError (CodeMap w V) := do
  let lf ← Sizing.accept capacity loadFactor
  return withSizing (.forTarget capacity lf w.domain) default

def size (m : CodeMap w V) : Nat := m.table.count

def isEmpty (m : CodeMap w V) : Bool := m.size == 0

def capacity (m : CodeMap w V) : Nat := m.table.length

def stored? (m : CodeMap w V) (key : CodeUnit w) : Option V :=
  if key.isNull then m.nullValue else m.table.find? key

def get (m : CodeMap w V) (key : CodeUnit w) : V := (m.stored? key).getD m.default

def grow (m : CodeMap w V) : CodeMap w V × TableEvent :=
  let ⟨table, sizing, nullValue, default⟩ := m
  let next := Sizing.forTarget sizing.nextTarget sizing.loadFactor w.domain
  let (table', delayed) := table.rehash next.length
  (⟨table', next, nullValue, default⟩, .grown table.length next.length table.count delayed)

/-- A fresh key may push the table over its threshold. -/
def growIfOver (m : CodeMap w V) : Insertion w V :=
  if m.sizing.threshold < m.table.count then
    let (m', event) := m.grow
    ⟨none, m', some event⟩
  else ⟨none, m, none⟩

def insert (m : CodeMap w V) (key : CodeUnit w) (value : V) : Insertion w V :=
  let ⟨table, sizing, nullValue, default⟩ := m
  if key.isNull then ⟨nullValue, ⟨table, sizing, some value, default⟩, none⟩
  else
    match table.probe key with
    | some (.held i) =>
      let previous := table.value? i
      ⟨previous, ⟨table.store i value, sizing, nullValue, default⟩, none⟩
    | some (.vacant i) => growIfOver ⟨table.occupy i ⟨key, value⟩, sizing, nullValue, default⟩
    | none => ⟨none, ⟨table, sizing, nullValue, default⟩, none⟩

/-- Removes the entry at a slot; a removal that took something out is reported. -/
def removeSlot (m : CodeMap w V) (i : Nat) : Option (V × TableEvent) × CodeMap w V :=
  let ⟨table, sizing, nullValue, default⟩ := m
  let ⟨value, table, shifted⟩ := table.remove i
  (value.map fun v => (v, .removed shifted table.count), ⟨table, sizing, nullValue, default⟩)

section Presence

variable [BEq V]

/-- The value of the null key, if it counts as present. -/
def presentNull (m : CodeMap w V) : Option V := m.nullValue.filter (· != m.default)

/-- Empties the slot of the null key; a value equal to the default counts as gone already. -/
def clearNull (m : CodeMap w V) : Option V × CodeMap w V :=
  (m.presentNull, { m with nullValue := none })

def contains (m : CodeMap w V) (key : CodeUnit w) : Bool :=
  if key.isNull then m.presentNull.isSome else m.table.contains key

/-- The keys in ascending order, the null key last if it is present. -/
def keys (m : CodeMap w V) : List (CodeUnit w) :=
  (m.table.keys.toList.filter fun key => !key.isNull).mergeSort (·.toNat ≤ ·.toNat) ++
    (if m.presentNull.isSome then [.null w] else [])

end Presence

end CodeMap

end LexBase
