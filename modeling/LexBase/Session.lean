import LexBase.Walk
import LexBase.CodeMap.Iter

/-!
# Sessions

A session holds any number of maps and of walkers over their entries. Every call is a command, so a
history of calls is a list of commands. A walker may be used with any map; a command for a map or a
walker that is not there changes nothing.
-/

namespace LexBase

set_option autoImplicit false

structure Session (w : Width) (V : Type) where
  maps : List (CodeMap w V)
  walkers : List (Walker w)

inductive Command (w : Width) (V : Type) where
  | insert (key : CodeUnit w) (value : V)
  | get (key : CodeUnit w)
  | contains (key : CodeUnit w)
  | size
  | isEmpty
  | capacity
  | default
  | keys
  | toList
  | iterate (limit : Nat)
  | retain (keep : Walk.Chooser w V)
  | clone
  | walker
  | cloneWalker (walker : Nat)
  | hasNext (walker : Nat)
  | next (walker : Nat)
  | remove (walker : Nat)
  | walk (walker : Nat) (choose : Walk.Chooser w V) (limit : Nat)

inductive Reply (w : Width) (V : Type) where
  | missing
  | replaced (previous : Option V)
  | value (v : V)
  | flag (b : Bool)
  | number (n : Nat)
  | units (keys : List (CodeUnit w))
  | entries (es : List (Entry w V))
  | items (length : Nat) (es : List (Entry w V × Nat))
  | visited (visits : Array (Visit w V)) (stop : Option WalkError)
  | created (index : Nat)
  | produced (answer : Except WalkError (Entry w V))
  | taken (answer : Except WalkError V)

structure Effect (w : Width) (V : Type) where
  reply : Reply w V
  session : Session w V
  events : Array TableEvent

namespace Session

variable {w : Width} {V : Type}

def updateAt {α β : Type} (f : α → β × α) : List α → Nat → Option β × List α
  | [], _ => (none, [])
  | a :: as, 0 =>
    let (b, a') := f a
    (some b, a' :: as)
  | a :: as, i + 1 =>
    let (b, as') := updateAt f as i
    (b, a :: as')

def onMap (s : Session w V) (i : Nat) (f : CodeMap w V → (Reply w V × Array TableEvent) × CodeMap w V) :
    Effect w V :=
  let ⟨maps, walkers⟩ := s
  let (outcome, maps') := updateAt f maps i
  let (reply, events) := outcome.getD (.missing, #[])
  ⟨reply, ⟨maps', walkers⟩, events⟩

def ask (s : Session w V) (i : Nat) (f : CodeMap w V → Reply w V) : Effect w V :=
  ⟨((s.maps[i]?).map f).getD .missing, s, #[]⟩

def addWalker (s : Session w V) (c : Option (Walker w)) : Effect w V :=
  match c with
  | none => ⟨.missing, s, #[]⟩
  | some c => ⟨.created s.walkers.length, { s with walkers := s.walkers ++ [c] }, #[]⟩

def addMap (s : Session w V) (m : CodeMap w V) : Effect w V :=
  ⟨.created s.maps.length, { s with maps := s.maps ++ [m] }, #[]⟩

variable [BEq V]

/-- A command that hands a map to a walker; both may change. -/
def withWalker (s : Session w V) (c i : Nat)
    (f : Walker w → CodeMap w V → Reply w V × Walker w × CodeMap w V × Array TableEvent) :
    Effect w V :=
  match s.walkers[c]? with
  | none => ⟨.missing, s, #[]⟩
  | some walker =>
    let ⟨maps, walkers⟩ := s
    let step (m : CodeMap w V) :=
      let (reply, walker', m', events) := f walker m
      ((reply, walker', events), m')
    let (outcome, maps') := updateAt step maps i
    match outcome with
    | none => ⟨.missing, ⟨maps', walkers⟩, #[]⟩
    | some (reply, walker', events) => ⟨reply, ⟨maps', walkers.set c walker'⟩, events⟩

/-- Performs a command on the map at index `i`. -/
def perform (s : Session w V) (i : Nat) : Command w V → Effect w V
  | .insert key value => s.onMap i fun m =>
    let ⟨previous, m', growth⟩ := m.insert key value
    ((.replaced previous, growth.toArray), m')
  | .get key => s.ask i fun m => .value (m.get key)
  | .contains key => s.ask i fun m => .flag (m.contains key)
  | .size => s.ask i fun m => .number m.size
  | .isEmpty => s.ask i fun m => .flag m.isEmpty
  | .capacity => s.ask i fun m => .number m.capacity
  | .default => s.ask i fun m => .value m.default
  | .keys => s.ask i fun m => .units m.keys
  | .toList => s.ask i fun m => .entries m.toList
  | .iterate limit => s.ask i fun m => .items m.iter.length (m.iter.collect limit)
  | .retain keep => s.onMap i fun m =>
    let ⟨_, m', visits, events⟩ := m.retain keep
    ((.visited visits none, events), m')
  | .clone =>
    match s.maps[i]? with
    | none => ⟨.missing, s, #[]⟩
    | some m => s.addMap m
  | .walker => s.addWalker ((s.maps[i]?).map CodeMap.walker)
  | .cloneWalker c => s.addWalker s.walkers[c]?
  | .hasNext c =>
    match s.walkers[c]? with
    | none => ⟨.missing, s, #[]⟩
    | some walker => s.ask i fun m => .flag (walker.hasNext m)
  | .next c => s.withWalker c i fun walker m =>
    let (answer, walker') := walker.next m
    (.produced answer, walker', m, #[])
  | .remove c => s.withWalker c i fun walker m =>
    let ⟨answer, walker', m', event⟩ := walker.remove m
    (.taken answer, walker', m', event.toArray)
  | .walk c choose limit => s.withWalker c i fun walker m =>
    let (⟨walker', m', visits, events⟩, stop) := walker.walk m choose limit
    (.visited visits stop, walker', m', events)

def run (s : Session w V) : List (Nat × Command w V) → List (Effect w V)
  | [] => []
  | (i, c) :: cs =>
    let e := s.perform i c
    e :: run e.session cs

end Session

end LexBase
