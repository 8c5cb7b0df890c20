/-
Bitvector literals. The magnitude of a literal is given as a 128-bit number
and reduced to the literal's width, so a literal of more than 128 bits has
zeros above bit 127, also when it is made from a negative number.
-/
import LiftedCode.Fault

namespace LiftedCode

/-- How many values a bitvector of `width` bits has: two to the power of
`width`. -/
def valueCount (width : Nat) : Nat := Nat.pow 2 width

/-- A bitvector has a value, even one of no bits. -/
theorem valueCount_pos (width : Nat) : 0 < valueCount width := Nat.two_pow_pos width

/-- A wider bitvector has no fewer values. -/
theorem valueCount_le_valueCount {v w : Nat} (h : v ≤ w) : valueCount v ≤ valueCount w :=
  Nat.pow_le_pow_right (by decide) h

/-- The number of bits in which magnitudes are given. -/
def magnitudeBits : Nat := 128

/-- The largest magnitude of a literal of `width` bits. -/
def largestMagnitude (width : Nat) : Nat := valueCount (min width magnitudeBits) - 1

/-- A magnitude reduced to `width` bits. -/
def reduceMagnitude (width magnitude : Nat) : Nat :=
  magnitude % valueCount (min width magnitudeBits)

/-- A reduced magnitude fits in the width. -/
theorem reduceMagnitude_lt (width magnitude : Nat) :
    reduceMagnitude width magnitude < valueCount width :=
  Nat.lt_of_lt_of_le (Nat.mod_lt _ (valueCount_pos _))
    (valueCount_le_valueCount (Nat.min_le_left _ _))

/-- A reduced magnitude is one that can be given. -/
theorem reduceMagnitude_fits (width magnitude : Nat) :
    reduceMagnitude width magnitude < valueCount magnitudeBits :=
  Nat.lt_of_lt_of_le (Nat.mod_lt _ (valueCount_pos _))
    (valueCount_le_valueCount (Nat.min_le_right _ _))

/-- A bitvector literal: at least one bit, and a magnitude that is one of the
values of the width and fits in the bits in which magnitudes are given. A
literal of more bits than these has zeros in the rest. -/
structure Literal where
  width : Nat
  magnitude : Nat
  width_pos : 0 < width
  magnitude_lt : magnitude < valueCount width
  magnitude_fits : magnitude < valueCount magnitudeBits

namespace Literal

/-- Literals with the same width and magnitude are equal. -/
@[ext] theorem ext {a b : Literal} (hw : a.width = b.width) (hm : a.magnitude = b.magnitude) :
    a = b := by
  cases a; cases b; cases hw; cases hm; rfl

instance : DecidableEq Literal := fun a b =>
  decidable_of_iff (a.width = b.width ∧ a.magnitude = b.magnitude)
    ⟨fun h => ext h.1 h.2, fun h => h ▸ ⟨rfl, rfl⟩⟩

instance : Inhabited Literal := ⟨⟨1, 0, by decide, valueCount_pos _, valueCount_pos _⟩⟩

/-- The literal of `width` bits for a magnitude, which is reduced to them. -/
def ofNat (width magnitude : Nat) : Except Fault Literal :=
  if h : 0 < width then
    .ok ⟨width, reduceMagnitude width magnitude, h, reduceMagnitude_lt _ _,
      reduceMagnitude_fits _ _⟩
  else .error .zeroWidthLiteral

/-- The literal of a signed number, in two's complement of 128 bits before it
is reduced. -/
def ofInt (width : Nat) (value : Int) : Except Fault Literal :=
  ofNat width (value % Int.ofNat (valueCount magnitudeBits)).toNat

end Literal

end LiftedCode
