import LexBase.Text.Utf8

/-!
# UTF-16

A character beyond the first 65536 is written as a high surrogate followed by a low one. The decoder
never fails: a surrogate without its partner is replaced by one replacement character.
-/

namespace LexBase.Utf16

set_option autoImplicit false

def encode (c : Char) : List (CodeUnit .word) :=
  let n := c.toNat
  if n < 0x10000 then [BitVec.ofNat 16 n]
  else [BitVec.ofNat 16 (0xd800 + (n - 0x10000) / 0x400), BitVec.ofNat 16 (0xdc00 + (n - 0x10000) % 0x400)]

def isHigh (u : CodeUnit .word) : Bool := 0xd800 ≤ u.toNat && u.toNat < 0xdc00

def isLow (u : CodeUnit .word) : Bool := 0xdc00 ≤ u.toNat && u.toNat < 0xe000

/-- The high surrogate that waits for its partner, if any. -/
abbrev State := Option (CodeUnit .word)

def start (u : CodeUnit .word) : List Char × State :=
  if isHigh u then ([], some u)
  else if isLow u then ([replacement], none)
  else ([Char.ofNat u.toNat], none)

def step : State → CodeUnit .word → List Char × State
  | none, u => start u
  | some h, u =>
    if isLow u then ([Char.ofNat (0x10000 + (h.toNat - 0xd800) * 0x400 + (u.toNat - 0xdc00))], none)
    else
      let (cs, s) := start u
      (replacement :: cs, s)

def finish : State → List Char
  | none => []
  | some _ => [replacement]

end LexBase.Utf16
