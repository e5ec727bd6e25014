/-!
# Table events

A table reports each growth and each removal.
-/

namespace LexBase

set_option autoImplicit false

inductive TableEvent where
  | grown (before after entries delayed : Nat)
  | removed (shifted entries : Nat)
deriving DecidableEq, Repr

namespace TableEvent

/-- How loud an event is: growth matters for tuning, removals only for tracing. -/
def level : TableEvent → String
  | grown .. => "DEBUG"
  | removed .. => "TRACE"

def message : TableEvent → String
  | grown .. => "expanded primitive-keyed table"
  | removed .. => "removed primitive-keyed entry"

def fields : TableEvent → List (String × Nat)
  | grown before after entries delayed =>
    [("from", before), ("to", after), ("entries", entries), ("delayed", delayed)]
  | removed shifted entries => [("shifted", shifted), ("entries", entries)]

end TableEvent

end LexBase
