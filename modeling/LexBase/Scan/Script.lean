import LexBase.Scan.Call
import LexBase.Scan.Loop
import LexBase.Scan.Backward
import LexBase.Scan.Lent

/-!
# Scripts

A script runs calls and scan loops on a reader and may turn around: a reversed passage runs backward on the
reader lent to it, then on the reference itself, and hands the reader back. After each step the record holds
the answer and what the reader shows: position, mark, and whether it has moved.
-/

namespace LexBase

set_option autoImplicit false

inductive Step where
  | call (call : Call)
  /-- A scan over units between two bounds. -/
  | lexeme (low high : Nat)
  | drain
  | reversed (steps : List Step) (inner : List Step)

structure Shown where
  position : Nat
  mark : Nat
  moved : Bool
  atEnd : Bool
deriving DecidableEq, Repr

inductive Outcome (w : Width) where
  | answer (a : Answer w)
  | lexeme (l : Option Lexeme)
  /-- The two passages, and what the inner reader shows before it is handed back. -/
  | reversed (steps inner : List (Outcome w × Shown)) (back : Shown)

variable {w : Width}

def Shown.of {C : Type} [Reader C w] (c : C) : Shown :=
  ⟨Reader.position c, Reader.mark c, Reader.moved c, Reader.atEnd c⟩

mutual

def Step.run {C : Type} [Reader C w] (c : C) : Step → Outcome w × C
  | .call k =>
    let (a, c') := k.perform c
    (.answer a, c')
  | .lexeme low high =>
    match scanLexeme (fun u => low ≤ u.toNat && u.toNat ≤ high) c with
    | (.ok l, c') => (.lexeme l, c')
    | (.error f, c') => (.answer (.fault f), c')
  | .drain =>
    let r := LexBase.drain c
    (.answer (r.fault.elim (.units r.units) .fault), r.reader)
  | .reversed steps inner =>
    let (outcomes, turned) := Step.runAll (Backward.mk (Lent.mk c)) steps
    let (more, lent) := Step.runAll turned.inner inner
    (.reversed outcomes more (.of lent), lent.inner)

def Step.runAll {C : Type} [Reader C w] (c : C) : List Step → List (Outcome w × Shown) × C
  | [] => ([], c)
  | s :: ss =>
    let (o, c') := Step.run c s
    let (os, c'') := Step.runAll c' ss
    ((o, .of c') :: os, c'')

end

end LexBase
