/-
Faults: the ways in which a computation stops because it was given numbers it
has no answer for. Widths, byte counts and vector lengths are 32-bit numbers,
addresses and identifiers are 64-bit numbers, and every operation on them that
can leave its range goes through the checked arithmetic below. The digits that
a numeral is padded to are counted in 16 bits. A fault is not
a verdict on the code that is read; the errors that are live with the passes
that find them.
-/

namespace LiftedCode

/-- A reason for which a computation has no result. -/
inductive Fault where
  /-- A number is beyond the 16, 32 or 64 bits in which it is kept. -/
  | overflow
  /-- A bitvector literal of no bits. -/
  | zeroWidthLiteral
  /-- A bitvector term of no bits. -/
  | zeroWidthTerm
  /-- An extraction whose upper bit lies below its lower bit. -/
  | emptyExtraction
  /-- A tuple has no field at the given position. -/
  | fieldOutOfRange
  /-- A map holds nothing under the given key. -/
  | missingKey
deriving DecidableEq, Repr, Inhabited

namespace Fault

/-- The assertion that a fault violates. Arithmetic and lookups have none. -/
def assertion? : Fault → Option String
  | zeroWidthLiteral => some "Zero-width bitvector literal"
  | zeroWidthTerm => some "Zero-width bitvector term"
  | emptyExtraction => some "Empty extraction"
  | overflow | fieldOutOfRange | missingKey => none

end Fault

/-- `x`, unless a number behind it left its range. It is not computed if one
did. -/
@[macro_inline] def inRange {α : Type} (fits : Bool) (x : α) : Except Fault α :=
  if fits then .ok x else .error .overflow

/-- Whether all tests hold, each looked at only if those before it do. -/
def allTrue : List (Except Fault Bool) → Except Fault Bool
  | [] => .ok true
  | t :: ts => do if ← t then allTrue ts else return false

-- ==================================================== 32-bit arithmetic

namespace Width

/-- One more than the largest width: two to the power of 32. -/
def limit : Nat := 4294967296

/-- The sum of two widths. -/
def add (a b : Nat) : Except Fault Nat := inRange (a + b < limit) (a + b)

/-- The product of two widths, or of a count and a width. -/
def mul (a b : Nat) : Except Fault Nat := inRange (a * b < limit) (a * b)

/-- The difference of two widths, the second of which must not be larger. -/
def sub (a b : Nat) : Except Fault Nat := inRange (b ≤ a) (a - b)

end Width

-- ==================================================== 64-bit arithmetic

namespace Address

/-- One more than the largest address: two to the power of 64. -/
def limit : Nat := 18446744073709551616

/-- An address moved up by an offset. -/
def add (a b : Nat) : Except Fault Nat := inRange (a + b < limit) (a + b)

/-- The sum of an address and an offset, held back at the largest address. -/
def addSaturating (a b : Nat) : Nat := min (a + b) (limit - 1)

end Address

end LiftedCode
