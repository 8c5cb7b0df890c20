/-
Types of values: truth values, bitvectors, floating-point numbers, packed
vectors of any of them, and tuples, which only machine functions produce.
Every type except a tuple has a width in bits, and the width of a vector is a
product that has to fit in 32 bits; `Ty.widthFits` says when it does.
-/
import LiftedCode.Fault
import LiftedCode.Text.Numeral

namespace LiftedCode

/-- A format of floating-point numbers. -/
inductive FloatFormat where
  | half
  | single
  | double
  /-- The 80-bit format of the x87 unit. -/
  | extended
deriving DecidableEq, Repr, Inhabited

namespace FloatFormat

/-- The number of bits of a value in the format. -/
def width : FloatFormat → Nat
  | half => 16
  | single => 32
  | double => 64
  | extended => 80

/-- All formats, the narrowest first. -/
def all : List FloatFormat := [half, single, double, extended]

/-- Formats are ordered by width; no two have the same. -/
instance : Ord FloatFormat := ⟨fun f g => compare f.width g.width⟩

/-- The written form of a format. -/
def text : FloatFormat → String
  | half => "f16"
  | single => "f32"
  | double => "f64"
  | extended => "f80"

end FloatFormat

/-- A type of values. -/
inductive Ty where
  /-- A truth value, which is not a bitvector of one bit. -/
  | bool
  | bits (width : Nat)
  | float (format : FloatFormat)
  | tuple (fields : List Ty)
  | vector (count : Nat) (elem : Ty)
deriving Inhabited

namespace Ty

-- ============================================================ equality

mutual

/-- Whether two types are the same, by a comparison of their parts. -/
def same : Ty → Ty → Bool
  | .bool, .bool => true
  | .bits v, .bits w => v == w
  | .float f, .float g => f == g
  | .tuple ts, .tuple us => sameList ts us
  | .vector m t, .vector n u => m == n && same t u
  | _, _ => false

/-- Whether two lists of types are equal. -/
def sameList : List Ty → List Ty → Bool
  | [], [] => true
  | t :: ts, u :: us => same t u && sameList ts us
  | _, _ => false

end

mutual

/-- The comparison finds equal exactly what is equal. -/
theorem same_iff : (t u : Ty) → (same t u = true ↔ t = u)
  | .bool, u => by cases u <;> simp [same]
  | .bits v, u => by cases u <;> simp [same]
  | .float f, u => by cases u <;> simp [same]
  | .tuple ts, u => by
    cases u <;> simp [same]
    exact sameList_iff ts _
  | .vector m t, u => by
    cases u <;> simp [same]
    intro _
    exact same_iff t _

/-- The comparison of lists finds equal exactly what is equal. -/
theorem sameList_iff : (ts us : List Ty) → (sameList ts us = true ↔ ts = us)
  | [], us => by cases us <;> simp [sameList]
  | t :: ts, us => by
    cases us with
    | nil => simp [sameList]
    | cons u us => simp [sameList, same_iff t u, sameList_iff ts us]

end

instance : DecidableEq Ty := fun t u => decidable_of_iff _ (same_iff t u)

-- =============================================================== order

/-- The position of the type's kind in the order of types. -/
def rank : Ty → Nat
  | bool => 0
  | bits _ => 1
  | float _ => 2
  | tuple _ => 3
  | vector _ _ => 4

mutual

/-- Types are ordered by kind, and within a kind by their parts from left to
right. -/
def order : Ty → Ty → Ordering
  | .bits v, .bits w => compare v w
  | .float f, .float g => compare f g
  | .tuple ts, .tuple us => orderList ts us
  | .vector m t, .vector n u => (compare m n).then (order t u)
  | t, u => compare t.rank u.rank

/-- Lists of types are ordered by their first difference; a list comes after
its own beginnings. -/
def orderList : List Ty → List Ty → Ordering
  | [], [] => .eq
  | [], _ :: _ => .lt
  | _ :: _, [] => .gt
  | t :: ts, u :: us => (order t u).then (orderList ts us)

end

instance : Ord Ty := ⟨order⟩

-- ============================================================== widths

/-- The number of bits of a value of the type; tuples have no flat form. -/
def width? : Ty → Option Nat
  | bool => some 1
  | bits w => some w
  | float f => some f.width
  | tuple _ => none
  | vector n t => t.width?.map (n * ·)

/-- Whether the width, and that of every vector inside, is a 32-bit number. -/
def widthFits : Ty → Bool
  | bool | bits _ | float _ | tuple _ => true
  | vector n t => t.widthFits && t.width?.all (n * · < Width.limit)

/-- The number of bits of a value of the type, computed in 32 bits. -/
def checkedWidth (t : Ty) : Except Fault (Option Nat) := inRange t.widthFits t.width?

/-- The width, if this is the type of a bitvector. -/
def bitsWidth? : Ty → Option Nat
  | bits w => some w
  | _ => none

/-- Whether this is the type of truth values. -/
def isBool : Ty → Bool
  | bool => true
  | _ => false

mutual

/-- Whether the type or a part of it is floating point. -/
def containsFloat : Ty → Bool
  | .bool | .bits _ => false
  | .float _ => true
  | .tuple ts => anyContainsFloat ts
  | .vector _ t => t.containsFloat

/-- Whether one of the types contains floating point. -/
def anyContainsFloat : List Ty → Bool
  | [] => false
  | t :: ts => t.containsFloat || anyContainsFloat ts

end

mutual

/-- Whether the type has no part of zero width: no bitvector of no bits and no
vector of no elements, at any depth. -/
def nonempty : Ty → Bool
  | .bool | .float _ => true
  | .bits w => w != 0
  | .tuple ts => allNonempty ts
  | .vector n t => n != 0 && t.nonempty

/-- Whether none of the types has a part of zero width. -/
def allNonempty : List Ty → Bool
  | [] => true
  | t :: ts => t.nonempty && allNonempty ts

end

-- ================================================================ text

mutual

/-- The written form of a type. -/
def text : Ty → String
  | .bool => "bool"
  | .bits w => "bv" ++ toString w
  | .float f => f.text
  | .tuple ts => "(" ++ commaSeparated (texts ts) ++ ")"
  | .vector n t => "<" ++ toString n ++ " x " ++ t.text ++ ">"

/-- The written forms of types. -/
def texts : List Ty → List String
  | [] => []
  | t :: ts => t.text :: texts ts

end

end Ty

/-- The type of a function: what it takes and what it returns. -/
structure Signature where
  args : List Ty
  rets : List Ty
  /-- Whether the function takes more arguments than those listed. -/
  variadic : Bool
deriving DecidableEq, Inhabited

/-- The written form of a signature. -/
def Signature.text (s : Signature) : String :=
  "(" ++ commaSeparated (s.args.map Ty.text) ++ (if s.variadic then ", ..." else "")
    ++ ") -> (" ++ commaSeparated (s.rets.map Ty.text) ++ ")"

end LiftedCode
