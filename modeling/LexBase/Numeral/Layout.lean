import LexBase.Numeral.Shortest

/-!
# Layout of decimals

How a number is written once its digits are known. `NumberLayout.plain` is the form of messages, always
positional; `NumberLayout.inspected` is the form of inspected values, which marks a whole number by
`.0` and goes over to an exponent outside a window of magnitudes.
-/

namespace LexBase

set_option autoImplicit false

structure NumberLayout where
  /-- Leading exponents written positionally: from the first bound up to, and without, the second. -/
  window : Option (Int × Int)
  /-- Whether a whole number in positional form ends in `.0`. -/
  marksWhole : Bool

namespace NumberLayout

def plain : NumberLayout := ⟨none, false⟩

def inspected : NumberLayout := ⟨some (-4, 16), true⟩

def isPositional (l : NumberLayout) (e : Int) : Bool :=
  match l.window with
  | none => true
  | some (low, high) => low ≤ e && e < high

def zeros (n : Nat) : String := String.ofList (List.replicate n '0')

def positional (l : NumberLayout) (d : Decimal) : String :=
  let ds := Nat.toDigits 10 d.digits
  if 0 ≤ d.exponent then
    String.ofList ds ++ zeros d.exponent.toNat ++ (if l.marksWhole then ".0" else "")
  else
    let places := (-d.exponent).toNat
    if places < ds.length then
      String.ofList (ds.take (ds.length - places)) ++ "." ++
        String.ofList (ds.drop (ds.length - places))
    else
      "0." ++ zeros (places - ds.length) ++ String.ofList ds

def scientific (d : Decimal) : String :=
  let ds := Nat.toDigits 10 d.digits
  let point := if ds.length ≤ 1 then "" else "."
  String.ofList (ds.take 1) ++ point ++ String.ofList (ds.drop 1) ++ "e" ++ toString d.leadingExponent

def magnitude (l : NumberLayout) (d : Decimal) : String :=
  if l.isPositional d.leadingExponent then l.positional d else scientific d

def render {f : BinaryFormat} (l : NumberLayout) (x : Binary f) : String :=
  match x.value with
  | .nan => "NaN"
  | .infinite s => (if s then "-" else "") ++ "inf"
  | .finite s m q =>
    let d := if m = 0 then ⟨0, 0⟩ else (Interval.around m q x.narrowBelow).shortest
    (if s then "-" else "") ++ l.magnitude d

end NumberLayout

end LexBase
