/-
Labels: a block of code is named by the address at which it starts.
-/
import LiftedCode.Text.Numeral

namespace LiftedCode

/-- The name of a block: the address of its first byte. -/
abbrev Label := Nat

/-- The written form of a label: the address in hexadecimal. -/
def labelText (l : Label) : String := "block_" ++ Numeral.digits 16 l

/-- Labels are told apart by their texts. -/
theorem labelText_injective {l m : Label} (h : labelText l = labelText m) : l = m :=
  Numeral.digits_injective (append_left_injective h)

end LiftedCode
