import LexBase.Text.Utf16

/-!
# Text of code units

Units of either width are the encoded form of a text: bytes in UTF-8, words in UTF-16. `decodeText` decodes
any units, valid or not; `encodeText` encodes a text. Both decoders are automata that may hold back part of
a character, so they share `run`, which feeds a list of units and collects the characters.
-/

namespace LexBase

set_option autoImplicit false

/-- A decoder: from a state, a unit yields characters and the next state. -/
structure Decoder (α : Type) (σ : Type) where
  step : σ → α → List Char × σ
  finish : σ → List Char

namespace Decoder

variable {α σ : Type}

def run (d : Decoder α σ) : σ → List α → List Char
  | s, [] => d.finish s
  | s, a :: as => (d.step s a).1 ++ d.run (d.step s a).2 as

@[simp] theorem run_nil (d : Decoder α σ) (s : σ) : d.run s [] = d.finish s := rfl

theorem run_cons (d : Decoder α σ) (s : σ) (a : α) (as : List α) :
    d.run s (a :: as) = (d.step s a).1 ++ d.run (d.step s a).2 as := rfl

end Decoder

def Utf8.decoder : Decoder (CodeUnit .byte) Utf8.State := ⟨Utf8.step, Utf8.finish⟩

def Utf16.decoder : Decoder (CodeUnit .word) Utf16.State := ⟨Utf16.step, Utf16.finish⟩

def decode : (w : Width) → List (CodeUnit w) → List Char
  | .byte => Utf8.decoder.run none
  | .word => Utf16.decoder.run none

def encode : (w : Width) → List Char → List (CodeUnit w)
  | .byte => List.flatMap Utf8.encode
  | .word => List.flatMap Utf16.encode

def decodeText {w : Width} (units : List (CodeUnit w)) : String := String.ofList (decode w units)

def encodeText (w : Width) (s : String) : List (CodeUnit w) := encode w s.toList

end LexBase
