/-
Lowering of operations. Where the target language leaves a result undefined
that an operation defines, the code guards against the case: shifts by the
width or more, and tests of bits beyond the width. An amount that is a literal
below the width needs no guard.
-/
import LiftedCode.Lowering.Memory

namespace LiftedCode.Lowering

open Llvm (Typed BinaryOperator IntPredicate FloatPredicate Intrinsic.withOverflow
  Intrinsic.popCount Intrinsic.countTrailingZeros Intrinsic.countLeadingZeros
  Intrinsic.squareRoot)

section

variable (env : Env)

-- ============================================================== shifts

/-- Whether a value is a literal below the width. -/
def isLiteralBelow (amount : Value) (width : Nat) : Bool :=
  match amount.bitsLiteral? with
  | some l => l.magnitude < width
  | none => false

/-- The two operands of an operator, from left to right. -/
def operands (a b : Value) : Step (Typed × Typed) := do
  let x ← value env a
  let y ← value env b
  return (x, y)

/-- A shift that brings in zeros. -/
def shift (op : BinaryOperator) (width : Nat) (a amount : Value) : Step Typed := do
  let (x, n) ← operands env a amount
  if isLiteralBelow amount width then
    Step.binary op x n
  else
    let ok ← Step.compare .ult n (.int width width)
    let r ← Step.binary op x n
    Step.select ok r (.int width 0)

/-- A shift that brings in sign bits. A shift by the width less one leaves
nothing else, so it stands for all longer ones. -/
def shiftSigned (width : Nat) (a amount : Value) : Step Typed := do
  let (x, n) ← operands env a amount
  if isLiteralBelow amount width then
    Step.binary .ashr x n
  else
    let ok ← Step.compare .ult n (.int width width)
    let most ← Step.ofFault (Width.sub width 1)
    let n ← Step.select ok n (.int width most)
    Step.binary .ashr x n

/-- Whether a bit is set, false beyond the width. -/
def testBit (width : Nat) (a index : Value) : Step Typed := do
  let (x, i) ← operands env a index
  let s ← Step.binary .lshr x i
  let b ← Step.cast .trunc s (.int 1)
  if isLiteralBelow index width then
    return b
  else
    let ok ← Step.compare .ult i (.int width width)
    Step.select ok b (.bool false)

-- ============================================================ overflow

/-- What a flag of the first step and one of the second say together. Of two
unsigned steps at most one leaves the range. Two signed steps both leave it
only in opposite directions, and then the result is back in it. -/
def combineOverflow (signed : Bool) : BinaryOperator := if signed then .xor else .or

/-- Whether a sum with a carry, or a difference less a borrow, leaves the range.
Without a carry the second step is left out. -/
def overflow (signed subtract : Bool) (width : Nat) (a b carry : Value) : Step Typed := do
  let d := Intrinsic.withOverflow signed subtract width
  let (x, y) ← operands env a b
  let r ← Step.call d [x, y]
  let o ← Step.assign (.int 1) (.extractValue r 1)
  if carry.boolLiteral? = some false then
    return o
  let c ← value env carry
  let c ← Step.cast .zext c (.int width)
  let s ← Step.assign (.int width) (.extractValue r 0)
  let r' ← Step.call d [s, c]
  let o' ← Step.assign (.int 1) (.extractValue r' 1)
  Step.binary (combineOverflow signed) o o'

/-- A sum or a difference, and then the carry. -/
def withCarry (op : BinaryOperator) (width : Nat) (a b carry : Value) : Step Typed := do
  let (x, y) ← operands env a b
  let s ← Step.binary op x y
  let c ← value env carry
  let c ← Step.cast .zext c (.int width)
  Step.binary op s c

-- ==================================================== operators by shape

/-- An operator that the target language has. -/
def plain (op : BinaryOperator) (a b : Value) : Step Typed := do
  let (x, y) ← operands env a b
  Step.binary op x y

/-- A comparison that the target language has. -/
def comparison (pred : IntPredicate) (a b : Value) : Step Typed := do
  let (x, y) ← operands env a b
  Step.compare pred x y

/-- A comparison of floating-point numbers that the target language has. -/
def floatComparison (pred : FloatPredicate) (a b : Value) : Step Typed := do
  let (x, y) ← operands env a b
  Step.assign (.int 1) (.floatCompare pred x y.operand)

/-- An operator on two bitvectors. Shifts and tests of bits are guarded. -/
def binaryApp (op : BinaryOp) (width : Nat) (a b : Value) : Step Typed :=
  match op with
  | .add => plain env .add a b
  | .sub => plain env .sub a b
  | .mul => plain env .mul a b
  | .udiv => plain env .udiv a b
  | .urem => plain env .urem a b
  | .sdiv => plain env .sdiv a b
  | .srem => plain env .srem a b
  | .ult => comparison env .ult a b
  | .ule => comparison env .ule a b
  | .slt => comparison env .slt a b
  | .sle => comparison env .sle a b
  | .testBit => testBit env width a b
  | .and => plain env .and a b
  | .or => plain env .or a b
  | .xor => plain env .xor a b
  | .shl => shift env .shl width a b
  | .shr => shift env .lshr width a b
  | .sar => shiftSigned env width a b

/-- An operator on one bitvector. Counts of zeros in zero give the width, which
makes the scan forward the width and the scan in reverse all ones; only where
undefined behaviour is allowed may they give anything. -/
def unaryApp (op : UnaryOp) (width : Nat) (a : Value) : Step Typed := do
  let x ← value env a
  let zeroUndefined := Typed.bool env.target.options.allowUndefined
  match op with
  | .upperHalf =>
    let twice ← Step.ofFault (Width.mul 2 width)
    let s ← Step.binary .lshr x (.int twice width)
    Step.cast .trunc s (.int width)
  | .lowerHalf => Step.cast .trunc x (.int width)
  | .complement => Step.binary .xor x ⟨.int width, .allOnes⟩
  | .popCount => Step.call (Intrinsic.popCount width) [x]
  | .reverseBytes => Step.reverseBytes x
  | .scanForward => Step.call (Intrinsic.countTrailingZeros width) [x, zeroUndefined]
  | .scanReverse =>
    let z ← Step.call (Intrinsic.countLeadingZeros width) [x, zeroUndefined]
    let most ← Step.ofFault (Width.sub width 1)
    Step.binary .sub (.int width most) z

/-- An operator on two bitvectors and a carry. -/
def carryApp (op : CarryOp) (width : Nat) (a b c : Value) : Step Typed :=
  match op with
  | .adc => withCarry env .add width a b c
  | .sbb => withCarry env .sub width a b c
  | .uadcOverflows => overflow env false false width a b c
  | .sadcOverflows => overflow env true false width a b c
  | .usbbOverflows => overflow env false true width a b c
  | .ssbbOverflows => overflow env true true width a b c

/-- An operator on two truth values. -/
def logicApp (op : LogicOp) (a b : Value) : Step Typed :=
  match op with
  | .and => plain env .and a b
  | .or => plain env .or a b
  | .xor => plain env .xor a b

/-- An operator on two floating-point numbers. -/
def floatBinaryApp (op : FloatBinaryOp) (a b : Value) : Step Typed :=
  match op with
  | .add => plain env .fadd a b
  | .sub => plain env .fsub a b
  | .mul => plain env .fmul a b
  | .div => plain env .fdiv a b
  | .lt => floatComparison env .orderedLess a b
  | .eq => floatComparison env .orderedEqual a b

/-- An operator on one floating-point number. Only what is not a number cannot
be ordered with itself. -/
def floatUnaryApp (op : FloatUnaryOp) (format : FloatFormat) (a : Value) : Step Typed := do
  match op with
  | .sqrt =>
    let x ← value env a
    Step.call (Intrinsic.squareRoot (.ofFormat format)) [x]
  | .isNaN => floatComparison env .unordered a a

/-- The conversion that changes a bitvector's width. -/
def resizeCast : ResizeOp → Llvm.CastOperator
  | .truncate => .trunc
  | .signExtend => .sext
  | .zeroExtend => .zext

/-- An operation, with the operand for its result. -/
def app : App Value → Step Typed
  | .eq a b => do
    let x ← Step.asInt (← value env a)
    let y ← Step.asInt (← value env b)
    Step.compare .eq x y
  | .mux _ c a b => do
    let p ← value env c
    let x ← value env a
    let y ← value env b
    Step.select p x y
  | .logic op a b => logicApp env op a b
  | .not a => do Step.binary .xor (← value env a) (.bool true)
  | .resize op a _ w => do Step.cast (resizeCast op) (← value env a) (.int w)
  | .bitcast a _ t => do
    let x ← value env a
    let t := Llvm.Ty.ofTy t
    if x.ty = t then
      return x
    else
      Step.cast .bitcast x t
  | .field ts a i => do
    let x ← value env a
    match ts[i]? with
    | some t => Step.assign (.ofTy t) (.extractValue x i)
    | none => Step.ofFault (.error .fieldOutOfRange)
  | .concat h l a b => do
    let w ← Step.ofFault (Width.add h l)
    let x ← value env a
    let x ← Step.cast .zext x (.int w)
    let y ← value env b
    let y ← Step.cast .zext y (.int w)
    let x ← Step.binary .shl x (.int w l)
    Step.binary .or x y
  | .evenParity a => do
    let x ← value env a
    let n ← Step.call (Intrinsic.popCount 8) [x]
    let odd ← Step.cast .trunc n (.int 1)
    Step.binary .xor odd (.bool true)
  | .unary op w a => unaryApp env op w a
  | .binary op w a b => binaryApp env op w a b
  | .carry op w a b c => carryApp env op w a b c
  | .floatUnary op f a => floatUnaryApp env op f a
  | .floatBinary op _ a b => floatBinaryApp env op a b
  | .floatConvert f a g => do
    let x ← value env a
    if f.width < g.width then
      Step.cast .floatExtend x (.ofFormat g)
    else if g.width < f.width then
      Step.cast .floatTruncate x (.ofFormat g)
    else
      return x
  | .floatOfSigned _ a f => do Step.cast .signedToFloat (← value env a) (.ofFormat f)
  | .signedOfFloat _ a w => do Step.cast .floatToSigned (← value env a) (.int w)

end

end LiftedCode.Lowering
