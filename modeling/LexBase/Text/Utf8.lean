import LexBase.CodeUnit

/-!
# UTF-8

The encoder writes a character in one to four bytes. The decoder is an automaton over bytes and never
fails: of a sequence that cannot be completed, each longest piece that some character starts with is
replaced by one replacement character, and the byte that broke the sequence is read afresh.
-/

namespace LexBase

set_option autoImplicit false

/-- What stands in for undecodable input. -/
def replacement : Char := Char.ofNat 0xfffd

namespace Utf8

def encode (c : Char) : List (CodeUnit .byte) :=
  let n := c.toNat
  let tail (shift : Nat) : CodeUnit .byte := BitVec.ofNat 8 (0x80 + n >>> shift % 64)
  let lead (mark shift : Nat) : CodeUnit .byte := BitVec.ofNat 8 (mark + n >>> shift)
  if n < 0x80 then [lead 0 0]
  else if n < 0x800 then [lead 0xc0 6, tail 0]
  else if n < 0x10000 then [lead 0xe0 12, tail 6, tail 0]
  else [lead 0xf0 18, tail 12, tail 6, tail 0]

/-- A sequence under way: the bytes still missing, the range of the next one, the bits so far. -/
structure Pending where
  missing : Nat
  low : Nat
  high : Nat
  bits : Nat
deriving DecidableEq, Repr

abbrev State := Option Pending

/-- What a byte between characters means: a character of its own, the start of a sequence, or neither.
The range of the second byte rules out overlong forms, surrogates and values past the last character. -/
def start (b : Nat) : List Char × State :=
  if b < 0x80 then ([Char.ofNat b], none)
  else if b < 0xc2 then ([replacement], none)
  else if b < 0xe0 then ([], some ⟨1, 0x80, 0xbf, b - 0xc0⟩)
  else if b = 0xe0 then ([], some ⟨2, 0xa0, 0xbf, 0⟩)
  else if b = 0xed then ([], some ⟨2, 0x80, 0x9f, 0xd⟩)
  else if b < 0xf0 then ([], some ⟨2, 0x80, 0xbf, b - 0xe0⟩)
  else if b = 0xf0 then ([], some ⟨3, 0x90, 0xbf, 0⟩)
  else if b < 0xf4 then ([], some ⟨3, 0x80, 0xbf, b - 0xf0⟩)
  else if b = 0xf4 then ([], some ⟨3, 0x80, 0x8f, 4⟩)
  else ([replacement], none)

def step : State → CodeUnit .byte → List Char × State
  | none, b => start b.toNat
  | some p, b =>
    if p.low ≤ b.toNat ∧ b.toNat ≤ p.high then
      let bits := p.bits * 64 + (b.toNat - 0x80)
      if p.missing ≤ 1 then ([Char.ofNat bits], none)
      else ([], some ⟨p.missing - 1, 0x80, 0xbf, bits⟩)
    else
      let (cs, s) := start b.toNat
      (replacement :: cs, s)

def finish : State → List Char
  | none => []
  | some _ => [replacement]

end Utf8

end LexBase
