/-
The order of values: by kind, then by width, then by content, then by type.
Assignments and variables are ordered by identifier and known functions by
name and address, so values that compare equal need not be equal trees. Widths
are compared in 32 bits, and only between values of one kind.
-/
import LiftedCode.Expr.Value

namespace LiftedCode

namespace Value

/-- The position of the value's kind in the order of values. -/
def rank : Value → Nat
  | bits _ => 0
  | bool _ => 1
  | assigned _ => 2
  | initial _ => 3
  | phi _ => 4
  | returned _ => 5
  | arg _ _ => 6
  | entry _ => 7

/-- The order of two values of one kind, by what they say apart from their
type. -/
def compareContent : Value → Value → Ordering
  | bits l, bits m => compare l.magnitude m.magnitude
  | bool b, bool c => compare b c
  | assigned a, assigned b => compare a.id b.id
  | initial r, initial s => compare r s
  | phi v, phi w => compare v.id w.id
  | returned v, returned w => compare v.id w.id
  | arg i _, arg j _ => compare i j
  | entry f, entry g => (compare f.name g.name).then (compare f.addr g.addr)
  | _, _ => .eq

/-- The order of values: by kind, then by width, then by content, and by type last. -/
def order (v w : Value) : Ordering :=
  (compare v.rank w.rank).then
    ((compare v.ty.width? w.ty.width?).then
      ((compareContent v w).then (compare v.ty w.ty)))

/-- The order of values, with widths computed in 32 bits if they matter. -/
def checkedOrder (v w : Value) : Except Fault Ordering :=
  inRange (v.rank != w.rank || (v.ty.widthFits && w.ty.widthFits)) (order v w)

/-- Whether two values are equal in the order, their widths computed in 32 bits. -/
def checkedSame (v w : Value) : Except Fault Bool := (checkedOrder v w).map (· == .eq)

/-- The values in order, those that compare equal as they came. Sorting
compares neighbours of the result, so it needs the width of every value that
shares its kind with another. -/
def sort (vs : List Value) : Except Fault (List Value) :=
  inRange
    (vs.all fun v => v.ty.widthFits || (vs.filter fun w => w.rank == v.rank).length ≤ 1)
    (vs.mergeSort fun v w => order v w != .gt)

/-- Whether two lists of values are of one length and compare equal, place by
place up to the first difference. -/
def checkedSameAll (vs ws : List Value) : Except Fault Bool :=
  if vs.length = ws.length then allTrue (List.zipWith checkedSame vs ws) else .ok false

end Value

namespace Rhs

/-- Whether two right-hand sides are of one shape, on operands that compare
equal. -/
def checkedSame (r s : Rhs Value) : Except Fault Bool :=
  if r.shape = s.shape then
    Value.checkedSameAll r.operands s.operands
  else .ok false

end Rhs

namespace Assignment

/-- Whether two assignments bind one identifier to the same right-hand side. -/
def checkedSame (a b : Assignment Value) : Except Fault Bool := do
  if a.id = b.id then
    return (← a.rhs.checkedSame b.rhs) && a.ty = b.ty
  else return false

end Assignment

end LiftedCode
