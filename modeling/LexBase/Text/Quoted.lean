import LexBase.Text.Printable

/-!
# Quoted text

The inspected form of a text stands in double quotes. A quote and a backslash are preceded by a
backslash, the common controls have a letter, and any other character that is not printable is written
by its number in braces. A single quote needs no escape.
-/

namespace LexBase.Quoted

set_option autoImplicit false

def hex (n : Nat) : List Char := Nat.toDigits 16 n

def escape (c : Char) : List Char :=
  match c with
  | '\x00' => ['\\', '0']
  | '\t' => ['\\', 't']
  | '\n' => ['\\', 'n']
  | '\r' => ['\\', 'r']
  | '"' => ['\\', '"']
  | '\\' => ['\\', '\\']
  | c => if isPrintable c then [c] else ['\\', 'u', '\x7b'] ++ hex c.toNat ++ ['\x7d']

def quote (s : String) : String :=
  String.ofList ('"' :: s.toList.flatMap escape ++ ['"'])

end LexBase.Quoted
