import LexBase.Inspect.Form
import LexBase.CodeUnit
import LexBase.Numeral.Layout
import LexBase.Text.Quoted

/-!
# Values that can be inspected

Instances for the values that maps hold and for the numbers that errors, walkers and readers mention.
-/

namespace LexBase

set_option autoImplicit false

class Inspect (α : Type) where
  form : α → Form

namespace Inspect

instance : Inspect Nat where
  form n := .atom (toString n)

instance : Inspect Int where
  form n := .atom (toString n)

instance : Inspect Bool where
  form b := .atom (toString b)

instance : Inspect Unit where
  form _ := .atom "()"

instance : Inspect String where
  form s := .atom (Quoted.quote s)

instance {w : Width} : Inspect (CodeUnit w) where
  form u := .atom (toString u.toNat)

instance {f : BinaryFormat} : Inspect (Binary f) where
  form x := .atom (NumberLayout.inspected.render x)

instance {α : Type} [Inspect α] : Inspect (Option α) where
  form
    | none => .atom "None"
    | some a => .tuple "Some" [form a]

end Inspect

end LexBase
