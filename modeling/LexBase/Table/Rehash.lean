import LexBase.Table.Basic

/-!
# Rehashing

A grown table is filled in two passes. First each key whose home slot is still vacant goes straight
there, with what is stored under it, and the others are set aside; then those are placed by probing. So
every slot that is the home of some key is held by a key whose home it is.
-/

namespace LexBase

set_option autoImplicit false

variable {w : Width} {V : Type}

abbrev Cell (w : Width) (V : Type) := CodeUnit w × Option V

/-- The state of the first pass: the new table and the cells set aside, in slot order. -/
structure Rehash (w : Width) (V : Type) where
  table : Table w V
  delayed : Array (Cell w V)

namespace Rehash

def settle (r : Rehash w V) (c : Cell w V) : Rehash w V :=
  let ⟨t, delayed⟩ := r
  let i := home t.length c.1
  if (t.key i).isNull then ⟨t.fill i c.1 c.2, delayed⟩
  else ⟨t, delayed.push c⟩

end Rehash

namespace Table

def cells (t : Table w V) : List (Cell w V) :=
  (t.keys.toList.zip t.values.toList).filter fun c => !c.1.isNull

/-- Places a key that is not in the table. -/
def place (t : Table w V) (c : Cell w V) : Table w V :=
  match t.probe c.1 with
  | some (.vacant i) => t.fill i c.1 c.2
  | _ => t

/-- The count of entries is kept: nothing is added. -/
def firstPass (t : Table w V) (length : Nat) : Rehash w V :=
  t.cells.foldl Rehash.settle ⟨{ empty length with count := t.count }, #[]⟩

/-- The cells in a table of the given length, and how many of them were set aside on the way. -/
def rehash (t : Table w V) (length : Nat) : Table w V × Nat :=
  let ⟨fresh, delayed⟩ := t.firstPass length
  (delayed.foldl place fresh, delayed.size)

end Table

end LexBase
