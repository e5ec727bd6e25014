import LexBase.Walker

/-!
# Walks

A walk asks a walker for one entry after the other and removes those that a chooser rejects. The chooser
may depend on all entries seen before. `retain` is the walk over all entries of a map.
-/

namespace LexBase

set_option autoImplicit false

variable {w : Width} {V : Type} [BEq V]

/-- One stop of a walk: the entry, and the answer to its removal if it was asked for. -/
structure Visit (w : Width) (V : Type) where
  entry : Entry w V
  removal : Option (Except WalkError V)

structure Walk (w : Width) (V : Type) where
  walker : Walker w
  map : CodeMap w V
  visits : Array (Visit w V)
  events : Array TableEvent

namespace Walk

/-- Which entries to remove, given the visits before. -/
abbrev Chooser (w : Width) (V : Type) := Array (Visit w V) → Entry w V → Bool

def visit (choose : Chooser w V) (k : Walk w V) (e : Entry w V) : Walk w V :=
  let ⟨walker, map, visits, events⟩ := k
  if choose visits e then
    let ⟨answer, walker, map, event⟩ := walker.remove map
    ⟨walker, map, visits.push ⟨e, some answer⟩, events ++ event.toArray⟩
  else ⟨walker, map, visits.push ⟨e, none⟩, events⟩

/-- At most `limit` visits; also what ended the walk before that, if anything did. -/
def run (choose : Chooser w V) (limit : Nat) (k : Walk w V) : Walk w V × Option WalkError :=
  match limit with
  | 0 => (k, none)
  | limit + 1 =>
    let ⟨walker, map, visits, events⟩ := k
    match walker.next map with
    | (.ok e, walker) => run choose limit (visit choose ⟨walker, map, visits, events⟩ e)
    | (.error err, walker) => (⟨walker, map, visits, events⟩, some err)

end Walk

/-- Walks a map with a walker that may come from an earlier state of it. -/
def Walker.walk (c : Walker w) (m : CodeMap w V) (choose : Walk.Chooser w V) (limit : Nat) :
    Walk w V × Option WalkError :=
  Walk.run choose limit ⟨c, m, #[], #[]⟩

/-- Keeps the entries that `keep` accepts. Every entry is asked about once, the null key last, so one
visit more than there are entries in the table is enough. -/
def CodeMap.retain (m : CodeMap w V) (keep : Walk.Chooser w V) : Walk w V :=
  (m.walker.walk m (fun seen e => !keep seen e) (m.size + 1)).1

end LexBase
