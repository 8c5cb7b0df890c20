/-
Lowering of accesses to memory. A value whose layout has the other byte order
than the target's memory is reversed on the way in and on the way out. The
bytes of an integer can be reversed at once if their number is even; an odd
number gets a zero byte in front first. A conditional access is a masked one
of a vector with a single element.
-/
import LiftedCode.Lowering.Step

namespace LiftedCode.Lowering

open Llvm (Typed Intrinsic.swapBytes Intrinsic.maskedLoad Intrinsic.maskedStore)

namespace Step

/-- A value as an integer of the same width. -/
def asInt (x : Typed) : Step Typed := do
  if x.ty.isInt then
    return x
  match ← ofFault x.ty.checkedWidth with
  | some w => cast .bitcast x (.int w)
  | none => throw (.unsupported (.aggregateComparison x.ty))

/-- The bytes of an integer in the opposite order. -/
def reverseBytes (x : Typed) : Step Typed := do
  match x.ty with
  | .int w =>
    if w % 8 != 0 then
      throw (.unsupported (.byteReversal x.ty))
    else if w = 8 then
      return x
    else if w % 16 = 0 then
      call (Intrinsic.swapBytes x.ty) [x]
    else
      let wider ← ofFault (Width.add w 8)
      let x ← cast .zext x (.int wider)
      let x ← call (Intrinsic.swapBytes (.int wider)) [x]
      let x ← binary .lshr x (.int wider 8)
      cast .trunc x (.int w)
  | t => throw (.unsupported (.byteReversal t))

/-- A value in the byte order of the target's memory brought to that of a
layout, or back. -/
def matchOrder (env : Env) (layout : Layout) (x : Typed) : Step Typed := do
  if layout.order = env.target.order then
    return x
  match layout with
  | .bits _ _ => reverseBytes x
  | .float _ _ =>
    let i ← asInt x
    let s ← reverseBytes i
    cast .bitcast s x.ty
  | .packed _ (.bits n _) =>
    if n = 1 then
      return x
    else if n % 2 = 0 then
      call (Intrinsic.swapBytes x.ty) [x]
    else
      refuse .swappedAccess layout
  | .packed _ _ => refuse .swappedAccess layout

end Step

section

variable (env : Env)

/-- An address, as a pointer. -/
def address (addr : Value) : Step Typed := do Step.pointer (← value env addr)

/-- The type that stands for the type of a layout. -/
def layoutTy (l : Layout) : Step Llvm.Ty := do return .ofTy (← Step.ofFault l.checkedTy)

/-- The mask of a vector of one element, from a condition. -/
def mask (cond : Value) : Step Typed := do
  Step.cast .bitcast (← value env cond) (Llvm.Ty.single (.int 1))

/-- A value as a vector of one element. -/
def singleton (x : Typed) : Step Typed :=
  Step.assign x.ty.single (.insertFirst ⟨x.ty.single, .undef⟩ x)

/-- A read of a layout at an address. -/
def read (addr : Value) (layout : Layout) : Step Typed := do
  let p ← address env addr
  let t ← layoutTy layout
  let x ← Step.assign t (.load t p)
  Step.matchOrder env layout x

/-- A read under a condition. The default is brought to the order of memory, so
that whatever comes out can be brought back alike. -/
def readIf (layout : Layout) (cond addr default : Value) : Step Typed := do
  if layout.isPacked then
    Step.refuse .packedReadIf layout
  let t ← layoutTy layout
  let m ← mask env cond
  let p ← address env addr
  let d ← Step.matchOrder env layout (← value env default)
  let v ← Step.assign t.single (.insertFirst ⟨t.single, .undef⟩ d)
  let r ← Step.call (Intrinsic.maskedLoad t) [p, .int 32 1, m, v]
  let x ← Step.assign t (.extractFirst r)
  Step.matchOrder env layout x

/-- A write of a value at an address, which is computed after the value. -/
def write (addr : Value) (layout : Layout) (v : Value) : Step Unit := do
  let x ← Step.matchOrder env layout (← value env v)
  let p ← address env addr
  Step.emit (.store x p)

/-- A write that happens only if the condition holds, as one under a mask of one bit. -/
def writeIf (cond addr : Value) (layout : Layout) (v : Value) : Step Unit := do
  let x ← Step.matchOrder env layout (← value env v)
  if layout.isPacked then
    Step.refuse .packedWriteIf layout
  let m ← mask env cond
  let p ← address env addr
  let s ← singleton x
  Step.callVoid (Intrinsic.maskedStore x.ty) [s, p, .int 32 1, m]

end

end LiftedCode.Lowering
