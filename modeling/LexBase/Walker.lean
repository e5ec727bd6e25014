import LexBase.CodeMap.Basic
import LexBase.Inspect

/-!
# Walkers

A walker visits the entries of a map. It holds positions and no map: each call is handed the map, so other
calls may come between. The walker remembers how many entries and slots it expects; a map that differs
is reported, and neither the walker nor the map changes then.

A walk starts just past a vacant slot. No run of occupied slots then straddles its start, so a removal
only moves entries into slots that are still ahead, and the vacated slot is looked at once more.
-/

namespace LexBase

set_option autoImplicit false

/-- The place of the entry a walker last produced. -/
inductive Position where
  | slot (offset index : Nat)
  | null
deriving DecidableEq, Repr

structure Walker (w : Width) where
  start : Nat
  /-- The table length at creation. -/
  span : Nat
  /-- The next slot to look at, counted from the start. -/
  offset : Nat
  expected : Nat
  current : Option Position
  nullVisited : Bool
deriving DecidableEq, Repr

variable {w : Width} {V : Type}

def CodeMap.walker (m : CodeMap w V) : Walker w :=
  let span := m.capacity
  ⟨(m.table.vacancy + 1) % span, span, 0, m.size, none, false⟩

namespace Walker

def matchesMap (c : Walker w) (m : CodeMap w V) : Bool :=
  m.size == c.expected && m.capacity == c.span

def mismatch (c : Walker w) (m : CodeMap w V) : WalkError :=
  .concurrentModification c.expected m.size

def slotAt (c : Walker w) (offset : Nat) : Nat := (c.start + offset) % c.span

def entryAt? (c : Walker w) (m : CodeMap w V) (offset : Nat) : Option (Nat × Entry w V) :=
  (m.table.slot? (c.slotAt offset)).map fun e => (offset, e)

def ahead? (c : Walker w) (m : CodeMap w V) : Option (Nat × Entry w V) :=
  firstSome (c.entryAt? m) c.offset (c.span - c.offset)

section Calls

variable [BEq V]

/-- Also true for a map that differs, so that the next call reports it. -/
def hasNext (c : Walker w) (m : CodeMap w V) : Bool :=
  !c.matchesMap m ||
    anyOf (fun o => (m.table.slot? (c.slotAt o)).isSome) c.offset (c.span - c.offset) ||
    (!c.nullVisited && m.presentNull.isSome)

/-- The table is walked first; the null key is asked for once, after it. -/
def next (c : Walker w) (m : CodeMap w V) :
    Except WalkError (Entry w V) × Walker w :=
  if !c.matchesMap m then (.error (c.mismatch m), c)
  else
    match c.ahead? m with
    | some (o, e) => (.ok e, { c with offset := o + 1, current := some (.slot o (c.slotAt o)) })
    | none =>
      let passed : Walker w := { c with offset := max c.offset c.span, nullVisited := true }
      match if c.nullVisited then none else m.presentNull with
      | some v => (.ok ⟨.null w, v⟩, { passed with current := some .null })
      | none => (.error .exhausted, { passed with current := none })

structure Removed (w : Width) (V : Type) where
  answer : Except WalkError V
  walker : Walker w
  map : CodeMap w V
  event : Option TableEvent

/-- Removes the entry last produced. The position is given up even if nothing is there any more. -/
def remove (c : Walker w) (m : CodeMap w V) : Removed w V :=
  if !c.matchesMap m then ⟨.error (c.mismatch m), c, m, none⟩
  else
    let gone : Walker w := { c with current := none }
    match c.current with
    | none => ⟨.error .invalidRemoval, gone, m, none⟩
    | some .null =>
      match m.clearNull with
      | (some v, m') => ⟨.ok v, gone, m', none⟩
      | (none, m') => ⟨.error .invalidRemoval, gone, m', none⟩
    | some (.slot o i) =>
      match m.removeSlot i with
      | (none, m') => ⟨.error .invalidRemoval, gone, m', none⟩
      | (some (v, event), m') =>
        ⟨.ok v, { gone with offset := o, expected := c.expected - 1 }, m', some event⟩

end Calls

def widthName : Width → String
  | .byte => "u8"
  | .word => "u16"

instance : Inspect Position where
  form
    | .slot offset index =>
      .record "Slot" [("offset", Inspect.form offset), ("index", Inspect.form index)]
    | .null => .atom "Null"

instance : Inspect (Walker w) where
  form c := .record "EntryCursor"
    [("start", Inspect.form c.start), ("span", Inspect.form c.span),
      ("offset", Inspect.form c.offset), ("expected", Inspect.form c.expected),
      ("current", Inspect.form c.current), ("null_visited", Inspect.form c.nullVisited),
      ("_key", .atom ("PhantomData<" ++ widthName w ++ ">"))]

end Walker

end LexBase
