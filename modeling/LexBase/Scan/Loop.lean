import LexBase.Scan.Reader

/-!
# Scan loops

The loop of a scanner: read on while the unit ahead passes a test. A scan cannot take more steps
than the buffer has units, in either direction.
-/

namespace LexBase

set_option autoImplicit false

variable {C : Type} {w : Width} [Reader C w]

/-- The units read by a scan, where it stopped, and the fault that stopped it, if one did. -/
structure Scanned (C : Type) (w : Width) where
  units : List (CodeUnit w)
  reader : C
  fault : Option Fault

/-- Reads units while they pass the test, at most `limit` of them. -/
def scanUpTo (test : CodeUnit w → Bool) (limit : Nat) (c : C) : Scanned C w :=
  match limit with
  | 0 => ⟨[], c, none⟩
  | limit + 1 =>
    if Reader.atEnd c then ⟨[], c, none⟩
    else
      match Reader.peek c with
      | .error f => ⟨[], c, some f⟩
      | .ok u =>
        if test u then
          match Reader.next.on c with
          | (.error f, c) => ⟨[], c, some f⟩
          | (.ok u, c) =>
            let rest := scanUpTo test limit c
            { rest with units := u :: rest.units }
        else ⟨[], c, none⟩

/-- After as many steps as there are units, one more look finds the end. -/
def scanWhile (test : CodeUnit w → Bool) (c : C) : Scanned C w :=
  scanUpTo test (Reader.length c + 1) c

def drain (c : C) : Scanned C w := scanWhile (fun _ => true) c

/-- A lexeme: where its scan started and stopped, and its text. -/
structure Lexeme where
  start : Nat
  stop : Nat
  text : String
deriving DecidableEq, Repr

/-- Marks the position and scans; a scan that moved yields the text it covers. -/
def scanLexeme (test : CodeUnit w → Bool) (c : C) : Except Fault (Option Lexeme) × C :=
  let start := Reader.position c
  let r := scanWhile test (Reader.setMark c)
  match r.fault with
  | some f => (.error f, r.reader)
  | none =>
    if Reader.moved r.reader then
      let stop := Reader.position r.reader
      ((Reader.text r.reader start stop).map fun text => some ⟨start, stop, text⟩, r.reader)
    else (.ok none, r.reader)

end LexBase
