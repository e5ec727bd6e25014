import LexBase.CodeMap.Basic
import LexBase.Inspect

/-!
# Iteration

An iterator over a map that does not change meanwhile: the entries in slot order, then the null key if it
is present. It knows how many entries are still to come.
-/

namespace LexBase

set_option autoImplicit false

structure Iter (w : Width) (V : Type) where
  keys : Array (CodeUnit w)
  values : Array (Option V)
  index : Nat
  remaining : Nat
  null : Option V

namespace Iter

variable {w : Width} {V : Type}

def length (it : Iter w V) : Nat := it.remaining + (if it.null.isSome then 1 else 0)

/-- What the iterator yields at a slot. It goes by the values and does not look at the key. -/
def slot? (it : Iter w V) (i : Nat) : Option (Entry w V) :=
  (it.values.getD i none).map fun v => ⟨it.keys.getD i (.null w), v⟩

def next? (it : Iter w V) : Option (Entry w V × Iter w V) :=
  let found := firstSome (fun i => (it.slot? i).map fun e => (i, e)) it.index
    (it.keys.size - it.index)
  match found with
  | some (i, e) => some (e, { it with index := i + 1, remaining := it.remaining - 1 })
  | none =>
    it.null.map fun v => (⟨.null w, v⟩, { it with index := it.keys.size, null := none })

/-- At most `limit` entries, each with the number of entries that come after it. -/
def collect (limit : Nat) (it : Iter w V) : List (Entry w V × Nat) :=
  match limit with
  | 0 => []
  | limit + 1 =>
    match it.next? with
    | none => []
    | some (e, it') => (e, it'.length) :: collect limit it'

end Iter

namespace CodeMap

variable {w : Width} {V : Type} [BEq V]

def iter (m : CodeMap w V) : Iter w V :=
  ⟨m.table.keys, m.table.values, 0, m.table.count, m.presentNull⟩

def toList (m : CodeMap w V) : List (Entry w V) :=
  m.table.entries ++ m.presentNull.toList.map fun v => ⟨.null w, v⟩

instance [Inspect V] : Inspect (CodeMap w V) where
  form m := .map (m.toList.map fun e => .entry (Inspect.form e.key) (Inspect.form e.value))

end CodeMap

end LexBase
