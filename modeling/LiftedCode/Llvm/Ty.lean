/-
Types of the target language, and how they are written: in full, and in the
short form that names the variants of an overloaded function.
-/
import LiftedCode.Fault
import LiftedCode.Text.Numeral

namespace LiftedCode.Llvm

/-- A type of the target language. -/
inductive Ty where
  | int (width : Nat)
  | half
  | float
  | double
  /-- The 80-bit format of the x87 unit. -/
  | extended
  | ptr
  | void
  | vector (count : Nat) (elem : Ty)
  | struct (fields : List Ty)
deriving Inhabited

namespace Ty

-- ============================================================ equality

mutual

/-- Whether two types are the same, by a comparison of their parts. -/
def same : Ty → Ty → Bool
  | .int v, .int w => v == w
  | .half, .half | .float, .float | .double, .double | .extended, .extended | .ptr, .ptr
  | .void, .void => true
  | .vector m t, .vector n u => m == n && same t u
  | .struct ts, .struct us => sameList ts us
  | _, _ => false

/-- Whether two lists of types are equal. -/
def sameList : List Ty → List Ty → Bool
  | [], [] => true
  | t :: ts, u :: us => same t u && sameList ts us
  | _, _ => false

end

mutual

/-- The comparison finds equal exactly what is equal. -/
theorem same_iff : (t u : Ty) → (same t u = true ↔ t = u)
  | .int v, u => by cases u <;> simp [same]
  | .half, u => by cases u <;> simp [same]
  | .float, u => by cases u <;> simp [same]
  | .double, u => by cases u <;> simp [same]
  | .extended, u => by cases u <;> simp [same]
  | .ptr, u => by cases u <;> simp [same]
  | .void, u => by cases u <;> simp [same]
  | .vector m t, u => by
    cases u <;> simp [same]
    intro _
    exact same_iff t _
  | .struct ts, u => by
    cases u <;> simp [same]
    exact sameList_iff ts _

/-- The comparison of lists finds equal exactly what is equal. -/
theorem sameList_iff : (ts us : List Ty) → (sameList ts us = true ↔ ts = us)
  | [], us => by cases us <;> simp [sameList]
  | t :: ts, us => by
    cases us with
    | nil => simp [sameList]
    | cons u us => simp [sameList, same_iff t u, sameList_iff ts us]

end

instance : DecidableEq Ty := fun t u => decidable_of_iff _ (same_iff t u)

-- ============================================================== widths

/-- The number of bits of a value of the type; pointers and structures have
none that is known. -/
def width? : Ty → Option Nat
  | int w => some w
  | half => some 16
  | float => some 32
  | double => some 64
  | extended => some 80
  | vector n t => t.width?.map (n * ·)
  | ptr | void | struct _ => none

/-- Whether the width, and that of every vector inside, is a 32-bit number. -/
def widthFits : Ty → Bool
  | vector n t => t.widthFits && t.width?.all (n * · < Width.limit)
  | _ => true

/-- The number of bits of a value of the type, computed in 32 bits. -/
def checkedWidth (t : Ty) : Except Fault (Option Nat) := inRange t.widthFits t.width?

/-- Whether this is an integer type. -/
def isInt : Ty → Bool
  | int _ => true
  | _ => false

-- ================================================================ text

mutual

/-- The short form, which names a variant of an overloaded function. -/
def mangled : Ty → String
  | .int w => "i" ++ toString w
  | .half => "f16"
  | .float => "f32"
  | .double => "f64"
  | .extended => "f80"
  | .ptr => "p0"
  | .void => "isVoid"
  | .vector n t => "v" ++ toString n ++ t.mangled
  | .struct ts => "sl_" ++ mangledAll ts ++ "s"

/-- The short forms of several types, one after the other. -/
def mangledAll : List Ty → String
  | [] => ""
  | t :: ts => t.mangled ++ mangledAll ts

end

mutual

/-- The text of a type. -/
def text : Ty → String
  | .int w => "i" ++ toString w
  | .half => "half"
  | .float => "float"
  | .double => "double"
  | .extended => "x86_fp80"
  | .ptr => "ptr"
  | .void => "void"
  | .vector n t => "<" ++ toString n ++ " x " ++ t.text ++ ">"
  | .struct [] => "\x7b\x7d"
  | .struct (t :: ts) => "\x7b " ++ commaSeparated (t.text :: texts ts) ++ " \x7d"

/-- The texts of types. -/
def texts : List Ty → List String
  | [] => []
  | t :: ts => t.text :: texts ts

end

/-- The vector type with one element. -/
def single (t : Ty) : Ty := vector 1 t

end Ty

end LiftedCode.Llvm
