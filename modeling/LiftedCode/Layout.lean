/-
Layouts: how a value lies in memory, down to its byte order. A layout counts
bytes where a type counts bits, and a bitvector of more than 2^29 - 1 bytes
has no type, and no written form either, as both name its width in bits.
-/
import LiftedCode.Ty

namespace LiftedCode

/-- Which end of a value comes first in memory. -/
inductive ByteOrder where
  | big
  | little
deriving DecidableEq, Repr, Inhabited

/-- The mark of a byte order at the end of a layout's name. -/
def ByteOrder.text : ByteOrder → String
  | .big => "be"
  | .little => "le"

/-- Both byte orders. -/
def ByteOrder.all : List ByteOrder := [big, little]

/-- How a value lies in memory. -/
inductive Layout where
  /-- A bitvector of whole bytes. -/
  | bits (bytes : Nat) (order : ByteOrder)
  | float (format : FloatFormat) (order : ByteOrder)
  /-- Elements of one layout, one after the other. -/
  | packed (count : Nat) (elem : Layout)
deriving DecidableEq, Inhabited

namespace Layout

/-- The type of the values with this layout. -/
def ty : Layout → Ty
  | bits n _ => .bits (8 * n)
  | float f _ => .float f
  | packed n l => .vector n l.ty

/-- Whether the widths in bits that the layout names are 32-bit numbers. -/
def bitsFit : Layout → Bool
  | bits n _ => 8 * n < Width.limit
  | float _ _ => true
  | packed _ l => l.bitsFit

/-- The type of the values with this layout, its widths computed in 32 bits. -/
def checkedTy (l : Layout) : Except Fault Ty := inRange l.bitsFit l.ty

/-- The number of bytes of a value; an 80-bit float takes ten. -/
def byteSize : Layout → Nat
  | bits n _ => n
  | float f _ => f.width / 8
  | packed n l => n * l.byteSize

/-- Whether the number of bytes is a 32-bit number, for every part. -/
def byteSizeFits : Layout → Bool
  | bits _ _ | float _ _ => true
  | packed n l => l.byteSizeFits && (n * l.byteSize < Width.limit)

/-- The number of bytes of a value, computed in 32 bits. -/
def checkedByteSize (l : Layout) : Except Fault Nat := inRange l.byteSizeFits l.byteSize

/-- The byte order, which for packed elements is that of each. -/
def order : Layout → ByteOrder
  | bits _ e | float _ e => e
  | packed _ l => l.order

/-- Whether this is a layout of packed elements. -/
def isPacked : Layout → Bool
  | packed _ _ => true
  | _ => false

/-- The written form: type and byte order, or count and element. -/
def text : Layout → String
  | bits n e => "bv" ++ toString (8 * n) ++ e.text
  | float f e => f.text ++ e.text
  | packed n l => toString n ++ "x" ++ l.text

/-- The written form, its widths computed in 32 bits. -/
def checkedText (l : Layout) : Except Fault String := inRange l.bitsFit l.text

end Layout

end LiftedCode
