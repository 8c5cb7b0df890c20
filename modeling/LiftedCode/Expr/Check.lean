/-
Checks: when an operation and a right-hand side are well formed, and how
assignments are made. The operands must have the types that the operation's
own widths call for, and the widths must be related as the operation needs.
An assignment is made only from a right-hand side that passes.
-/
import LiftedCode.Expr.Error

namespace LiftedCode

namespace App

/-- Require an operand to have a type. -/
def expectOperand (name : String) (index : Nat) (expected : Ty) (v : Value) :
    Except CodeError Unit :=
  expectTy (.operand index name) expected v.ty

/-- The type of the bitvectors of a width, which must not be zero. -/
def positiveBits (name : String) (width : Nat) : Except CodeError Ty :=
  if width = 0 then .error (.zeroWidth (.operation name)) else .ok (.bits width)

/-- Whether a change of width brings values of `src` bits to `dst` bits. -/
def ResizeOp.relates (op : ResizeOp) (src dst : Nat) : Bool :=
  match op with
  | .truncate => dst < src
  | .signExtend | .zeroExtend => src < dst

/-- Require the operands to agree with the operation's widths, and the widths
to be related as the operation needs. -/
def check (a : App Value) : Except CodeError Unit := do
  let name := a.mnemonic
  match a with
  | eq x y =>
    match ← x.ty.checkedWidth with
    | none => throw (.expectedBits (.operand 0 name) x.ty)
    | some _ => expectOperand name 1 x.ty y
  | mux t c x y =>
    expectOperand name 0 .bool c
    expectOperand name 1 t x
    expectOperand name 2 t y
  | logic _ x y =>
    expectOperand name 0 .bool x
    expectOperand name 1 .bool y
  | not x => expectOperand name 0 .bool x
  | resize op x v w =>
    expectOperand name 0 (← positiveBits name v) x
    if op = .truncate then
      let _ ← positiveBits name w
    if !ResizeOp.relates op v w then
      throw (.invalidWidths name v w)
  | bitcast x t u =>
    expectOperand name 0 t x
    let v ← t.checkedWidth
    let w ← u.checkedWidth
    if v.isNone || v != w || v == some 0 then
      throw (.invalidWidths name (v.getD 0) (w.getD 0))
  | field ts x i =>
    expectOperand name 0 (.tuple ts) x
    if ts.length ≤ i then
      throw (.fieldOutOfRange i ts.length)
  | concat h l x y =>
    expectOperand name 0 (← positiveBits name h) x
    expectOperand name 1 (← positiveBits name l) y
  | evenParity x => expectOperand name 0 (.bits 8) x
  | unary op w x =>
    if op = .reverseBytes && w % 8 != 0 then
      throw (.invalidWidths name w w)
    let v ← if op.halves then Width.mul 2 w else .ok w
    expectOperand name 0 (← positiveBits name v) x
  | binary _ w x y =>
    let t ← positiveBits name w
    expectOperand name 0 t x
    expectOperand name 1 t y
  | carry _ w x y c =>
    let t ← positiveBits name w
    expectOperand name 0 t x
    expectOperand name 1 t y
    expectOperand name 2 .bool c
  | floatUnary _ f x => expectOperand name 0 (.float f) x
  | floatBinary _ f x y =>
    expectOperand name 0 (.float f) x
    expectOperand name 1 (.float f) y
  | floatConvert f x _ => expectOperand name 0 (.float f) x
  | floatOfSigned w x _ => expectOperand name 0 (← positiveBits name w) x
  | signedOfFloat f x w =>
    let _ ← positiveBits name w
    expectOperand name 0 (.float f) x

-- ============================== operations sized by their operands

/-- The operation, provided that it passes the check. -/
def checked (a : App Value) : Except CodeError (App Value) := do
  a.check
  return a

/-- An operation on two bitvectors, of the width of the first. -/
def ofBinary (op : BinaryOp) (x y : Value) : Except CodeError (App Value) := do
  (binary op (← expectBits .firstOperand x.ty) x y).checked

/-- An operation with a carry, of the width of the first operand. -/
def ofCarry (op : CarryOp) (x y c : Value) : Except CodeError (App Value) := do
  (carry op (← expectBits .firstOperand x.ty) x y c).checked

/-- An operation on one bitvector, of its width. -/
def ofUnary (op : UnaryOp) (x : Value) : Except CodeError (App Value) := do
  (unary op (← expectBits .onlyOperand x.ty) x).checked

/-- A bitvector brought to another width. -/
def ofResize (op : ResizeOp) (x : Value) (width : Nat) : Except CodeError (App Value) := do
  (resize op x (← expectBits (.resized op) x.ty) width).checked

/-- A choice between two values, of the type of the first. -/
def ofMux (c x y : Value) : Except CodeError (App Value) :=
  (mux x.ty c x y).checked

end App

namespace Rhs

/-- Require the operands of a right-hand side to have the types it needs.
The operands of machine functions may have any type. -/
def check : Rhs Value → Except CodeError Unit
  | app a => a.check
  | undefined t => expectNonempty .undefinedValue t
  | read a l => do
    expectNonempty .read (← l.checkedTy)
    let _ ← expectBits .readAddress a.ty
  | readIf l c a d => do
    let t ← l.checkedTy
    expectNonempty .readIf t
    expectTy .readIfCondition .bool c.ty
    let _ ← expectBits .readIfAddress a.ty
    expectTy .readIfDefault t d.ty
  | machine f => do expectNonempty .machineFunction (← f.ty)

end Rhs

/-- Bind an identifier to a right-hand side that passes the check. -/
def Assignment.make (id : Ident) (rhs : Rhs Value) : Except CodeError (Assignment Value) := do
  rhs.check
  return ⟨id, rhs, ← rhs.ty⟩

-- ================================================= fresh identifiers

/-- The next identifier that has not been used. -/
structure IdentSupply where
  next : Ident
deriving DecidableEq, Inhabited

namespace IdentSupply

/-- Take an identifier, unless none is left after it. -/
def fresh (s : IdentSupply) : Except Fault Ident × IdentSupply :=
  match Address.add s.next 1 with
  | .ok n => (.ok s.next, ⟨n⟩)
  | .error e => (.error e, s)

/-- Bind a fresh identifier to a right-hand side. The identifier is used up
even if the right-hand side does not pass. -/
def assign (s : IdentSupply) (rhs : Rhs Value) :
    Except CodeError (Assignment Value) × IdentSupply :=
  match s.fresh with
  | (.ok id, s) => (Assignment.make id rhs, s)
  | (.error e, s) => (.error (.fault e), s)

end IdentSupply

end LiftedCode
