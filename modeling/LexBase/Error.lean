import LexBase.Inspect

/-!
# Errors

A map refuses a configuration (`ConfigError`); a walker over its entries refuses a call (`WalkError`).
Neither has a cause beneath it. Two refused load factors are equal when they are equal as numbers, so a
refusal of NaN differs even from itself.
-/

namespace LexBase

set_option autoImplicit false

inductive ConfigError where
  | capacity (requested : Nat)
  | loadFactor (requested : Single)

inductive WalkError where
  | exhausted
  | concurrentModification (expected found : Nat)
  | invalidRemoval
deriving DecidableEq, Repr

namespace ConfigError

def message : ConfigError → String
  | capacity n => "initial capacity must be at least 1, got " ++ toString n
  | loadFactor x =>
    "load factor must lie strictly between 0 and 1, got " ++ NumberLayout.plain.render x

instance : BEq ConfigError where
  beq
    | capacity m, capacity n => m == n
    | loadFactor x, loadFactor y => x == y
    | _, _ => false

instance : Inspect ConfigError where
  form
    | capacity n => .tuple "Capacity" [Inspect.form n]
    | loadFactor x => .tuple "LoadFactor" [Inspect.form x]

end ConfigError

namespace WalkError

def message : WalkError → String
  | exhausted => "entry iteration is exhausted"
  | concurrentModification expected found =>
    "map was modified during iteration (expected " ++ toString expected ++ " entries, found " ++
      toString found ++ ")"
  | invalidRemoval => "no current entry to remove"

instance : Inspect WalkError where
  form
    | exhausted => .atom "Exhausted"
    | concurrentModification expected found =>
      .record "ConcurrentModification"
        [("expected", Inspect.form expected), ("found", Inspect.form found)]
    | invalidRemoval => .atom "InvalidRemoval"

end WalkError

end LexBase
