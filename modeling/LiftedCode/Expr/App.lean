/-
Operations: the closed set of pure operations on values, over any type `ν` of
operands. Every operation carries the widths that fix its result type, so the
type of a result never depends on the operands. Operations that share a shape
share a constructor, and an operator says which one is meant.
-/
import LiftedCode.Ty

namespace LiftedCode

-- ========================================================== operators

/-- An operator on two truth values. -/
inductive LogicOp where
  | and
  | or
  | xor
deriving DecidableEq, Repr, Inhabited

/-- A conversion of bitvectors to another width. -/
inductive ResizeOp where
  /-- Keep the low bits. -/
  | truncate
  /-- Repeat the sign bit. -/
  | signExtend
  /-- Put zeros in front. -/
  | zeroExtend
deriving DecidableEq, Repr, Inhabited

/-- An operator on one bitvector. -/
inductive UnaryOp where
  /-- The upper half of a value of twice the width. -/
  | upperHalf
  /-- The lower half of a value of twice the width. -/
  | lowerHalf
  | complement
  /-- The number of bits that are set. -/
  | popCount
  /-- The bytes in the opposite order; the width is a multiple of 8. -/
  | reverseBytes
  /-- The index of the least significant set bit; the width if there is none. -/
  | scanForward
  /-- The index of the most significant set bit; all ones if there is none. -/
  | scanReverse
deriving DecidableEq, Repr, Inhabited

/-- Operators on two bitvectors of the same width. -/
inductive BinaryOp where
  | add
  | sub
  | mul
  | udiv
  | urem
  | sdiv
  | srem
  | ult
  | ule
  | slt
  | sle
  /-- Whether the bit with the given index is set; false beyond the width. -/
  | testBit
  | and
  | or
  | xor
  /-- Left shift; zero from the width on. -/
  | shl
  /-- Logical right shift; zero from the width on. -/
  | shr
  /-- Arithmetic right shift; all sign bits from the width on. -/
  | sar
deriving DecidableEq, Repr, Inhabited

/-- Operators on two bitvectors and a carry or borrow. -/
inductive CarryOp where
  /-- The sum with the carry. -/
  | adc
  /-- The difference less the borrow. -/
  | sbb
  /-- Whether the sum with the carry leaves the unsigned range. -/
  | uadcOverflows
  /-- Whether the sum with the carry leaves the signed range. -/
  | sadcOverflows
  /-- Whether the difference less the borrow leaves the unsigned range. -/
  | usbbOverflows
  /-- Whether the difference less the borrow leaves the signed range. -/
  | ssbbOverflows
deriving DecidableEq, Repr, Inhabited

/-- An operator on one floating-point number. -/
inductive FloatUnaryOp where
  | sqrt
  | isNaN
deriving DecidableEq, Repr, Inhabited

/-- An operator on two floating-point numbers of one format. -/
inductive FloatBinaryOp where
  | add
  | sub
  | mul
  | div
  | lt
  | eq
deriving DecidableEq, Repr, Inhabited

namespace LogicOp

/-- All operators on two truth values. -/
def all : List LogicOp := [and, or, xor]

/-- The name of an operator in written code. -/
def mnemonic : LogicOp → String
  | and => "and"
  | or => "or"
  | xor => "xor"

end LogicOp

namespace ResizeOp

/-- All conversions to another width. -/
def all : List ResizeOp := [truncate, signExtend, zeroExtend]

/-- The name of a conversion in written code. -/
def mnemonic : ResizeOp → String
  | truncate => "trunc"
  | signExtend => "sext"
  | zeroExtend => "uext"

end ResizeOp

namespace UnaryOp

/-- All operators on one bitvector. -/
def all : List UnaryOp :=
  [upperHalf, lowerHalf, complement, popCount, reverseBytes, scanForward, scanReverse]

/-- The name of an operator in written code. -/
def mnemonic : UnaryOp → String
  | upperHalf => "upper_half"
  | lowerHalf => "lower_half"
  | complement => "bv_complement"
  | popCount => "popcount"
  | reverseBytes => "reverse_bytes"
  | scanForward => "bsf"
  | scanReverse => "bsr"

/-- Whether the operand is twice as wide as the result. -/
def halves : UnaryOp → Bool
  | upperHalf | lowerHalf => true
  | _ => false

end UnaryOp

namespace BinaryOp

/-- All operators on two bitvectors. -/
def all : List BinaryOp :=
  [add, sub, mul, udiv, urem, sdiv, srem, ult, ule, slt, sle, testBit, and, or, xor, shl, shr,
    sar]

/-- The name of an operator in written code. -/
def mnemonic : BinaryOp → String
  | add => "bv_add"
  | sub => "bv_sub"
  | mul => "bv_mul"
  | udiv => "bv_udiv"
  | urem => "bv_urem"
  | sdiv => "bv_sdiv"
  | srem => "bv_srem"
  | ult => "bv_ult"
  | ule => "bv_ule"
  | slt => "bv_slt"
  | sle => "bv_sle"
  | testBit => "bv_test_bit"
  | and => "bv_and"
  | or => "bv_or"
  | xor => "bv_xor"
  | shl => "bv_shl"
  | shr => "bv_shr"
  | sar => "bv_sar"

/-- Whether the result is a truth value. -/
def isTest : BinaryOp → Bool
  | ult | ule | slt | sle | testBit => true
  | _ => false

end BinaryOp

namespace CarryOp

/-- All operators with a carry. -/
def all : List CarryOp :=
  [adc, sbb, uadcOverflows, sadcOverflows, usbbOverflows, ssbbOverflows]

/-- The name of an operator in written code. -/
def mnemonic : CarryOp → String
  | adc => "bv_adc"
  | sbb => "bv_sbb"
  | uadcOverflows => "uadc_overflows"
  | sadcOverflows => "sadc_overflows"
  | usbbOverflows => "usbb_overflows"
  | ssbbOverflows => "ssbb_overflows"

/-- Whether the result is a truth value. -/
def isTest : CarryOp → Bool
  | adc | sbb => false
  | _ => true

end CarryOp

namespace FloatUnaryOp

/-- All operators on one floating-point number. -/
def all : List FloatUnaryOp := [sqrt, isNaN]

/-- The name of an operator in written code. -/
def mnemonic : FloatUnaryOp → String
  | sqrt => "fp_sqrt"
  | isNaN => "fp_is_nan"

/-- Whether the result is a truth value. -/
def isTest : FloatUnaryOp → Bool
  | sqrt => false
  | isNaN => true

end FloatUnaryOp

namespace FloatBinaryOp

/-- All operators on two floating-point numbers. -/
def all : List FloatBinaryOp := [add, sub, mul, div, lt, eq]

/-- The name of an operator in written code. -/
def mnemonic : FloatBinaryOp → String
  | add => "fp_add"
  | sub => "fp_sub"
  | mul => "fp_mul"
  | div => "fp_div"
  | lt => "fp_lt"
  | eq => "fp_eq"

/-- Whether the result is a truth value. -/
def isTest : FloatBinaryOp → Bool
  | lt | eq => true
  | _ => false

end FloatBinaryOp

-- ======================================================= applications

/-- A pure operation on operands of type `ν`. -/
inductive App (ν : Type) where
  /-- Equality of two values of one type. -/
  | eq (a b : ν)
  /-- The second operand if the first holds, the third otherwise. -/
  | mux (ty : Ty) (cond a b : ν)
  | logic (op : LogicOp) (a b : ν)
  | not (a : ν)
  /-- A bitvector of `src` bits brought to `dst` bits. -/
  | resize (op : ResizeOp) (a : ν) (src dst : Nat)
  /-- The bits of a value, read at another type of the same width. -/
  | bitcast (a : ν) (src dst : Ty)
  /-- A field of a tuple with fields of the given types. -/
  | field (fields : List Ty) (tuple : ν) (index : Nat)
  /-- The bits of `hi` above those of `lo`. -/
  | concat (hiWidth loWidth : Nat) (hi lo : ν)
  /-- Whether a byte has an even number of set bits. -/
  | evenParity (a : ν)
  | unary (op : UnaryOp) (width : Nat) (a : ν)
  | binary (op : BinaryOp) (width : Nat) (a b : ν)
  | carry (op : CarryOp) (width : Nat) (a b c : ν)
  | floatUnary (op : FloatUnaryOp) (format : FloatFormat) (a : ν)
  | floatBinary (op : FloatBinaryOp) (format : FloatFormat) (a b : ν)
  /-- A floating-point number in another format. -/
  | floatConvert (src : FloatFormat) (a : ν) (dst : FloatFormat)
  /-- A signed integer as a floating-point number. -/
  | floatOfSigned (width : Nat) (a : ν) (dst : FloatFormat)
  /-- A floating-point number as a signed integer, rounded toward zero. -/
  | signedOfFloat (src : FloatFormat) (a : ν) (width : Nat)
deriving DecidableEq, Inhabited

namespace App

variable {ν : Type}

/-- The values that the operation reads, in order. -/
def operands : App ν → List ν
  | eq a b | logic _ a b | concat _ _ a b | binary _ _ a b | floatBinary _ _ a b => [a, b]
  | mux _ a b c | carry _ _ a b c => [a, b, c]
  | not a | resize _ a _ _ | bitcast a _ _ | field _ a _ | evenParity a | unary _ _ a
  | floatUnary _ _ a | floatConvert _ a _ | floatOfSigned _ a _ | signedOfFloat _ a _ => [a]

/-- The name of an operation in written code. -/
def mnemonic : App ν → String
  | eq _ _ => "eq"
  | mux _ _ _ _ => "mux"
  | logic op _ _ => op.mnemonic
  | not _ => "not"
  | resize op _ _ _ => op.mnemonic
  | bitcast _ _ _ => "bitcast"
  | field _ _ _ => "tuple_field"
  | concat _ _ _ _ => "concat"
  | evenParity _ => "even_parity"
  | unary op _ _ => op.mnemonic
  | binary op _ _ _ => op.mnemonic
  | carry op _ _ _ _ => op.mnemonic
  | floatUnary op _ _ => op.mnemonic
  | floatBinary op _ _ _ => op.mnemonic
  | floatConvert _ _ _ => "fp_cvt"
  | floatOfSigned _ _ _ => "fp_from_sbv"
  | signedOfFloat _ _ _ => "fp_to_sbv"

/-- The type of the result. A concatenation may be too wide for a type, and a
tuple may lack the field; operations that pass the check have neither fault. -/
def ty : App ν → Except Fault Ty
  | eq _ _ | logic _ _ _ | not _ | evenParity _ => .ok .bool
  | mux t _ _ _ => .ok t
  | resize _ _ _ w => .ok (.bits w)
  | bitcast _ _ t => .ok t
  | field ts _ i => match ts[i]? with
    | some t => .ok t
    | none => .error .fieldOutOfRange
  | concat h l _ _ => (Width.add h l).map .bits
  | unary _ w _ => .ok (.bits w)
  | binary op w _ _ => .ok (if op.isTest then .bool else .bits w)
  | carry op w _ _ _ => .ok (if op.isTest then .bool else .bits w)
  | floatUnary op f _ => .ok (if op.isTest then .bool else .float f)
  | floatBinary op f _ _ => .ok (if op.isTest then .bool else .float f)
  | floatConvert _ _ f => .ok (.float f)
  | floatOfSigned _ _ f => .ok (.float f)
  | signedOfFloat _ _ w => .ok (.bits w)

/-- What the written form has in angle brackets after the name: the target of
a conversion, or the index of a field. -/
def target? : App ν → Option String
  | resize _ _ _ w | signedOfFloat _ _ w => some (toString w)
  | bitcast _ _ t => some t.text
  | field _ _ i => some (toString i)
  | floatConvert _ _ f | floatOfSigned _ _ f => some f.text
  | _ => none

/-- The written form, from those of the operands. -/
def text (operand : ν → String) (a : App ν) : String :=
  a.mnemonic ++ (match a.target? with
    | some t => "<" ++ t ++ ">"
    | none => "") ++ " " ++ blankSeparated (a.operands.map operand)

/-- The operation with nothing in the place of its operands. -/
def shape : App ν → App Unit
  | eq _ _ => eq () ()
  | mux t _ _ _ => mux t () () ()
  | logic op _ _ => logic op () ()
  | not _ => not ()
  | resize op _ v w => resize op () v w
  | bitcast _ t u => bitcast () t u
  | field ts _ i => field ts () i
  | concat h l _ _ => concat h l () ()
  | evenParity _ => evenParity ()
  | unary op w _ => unary op w ()
  | binary op w _ _ => binary op w () ()
  | carry op w _ _ _ => carry op w () () ()
  | floatUnary op f _ => floatUnary op f ()
  | floatBinary op f _ _ => floatBinary op f () ()
  | floatConvert f _ h => floatConvert f () h
  | floatOfSigned w _ h => floatOfSigned w () h
  | signedOfFloat f _ w => signedOfFloat f () w

/-- An operation is given by its shape and its operands. -/
theorem eq_iff_shape {a b : App ν} : a = b ↔ a.shape = b.shape ∧ a.operands = b.operands := by
  refine ⟨fun h => h ▸ ⟨rfl, rfl⟩, fun ⟨hs, ho⟩ => ?_⟩
  cases a <;> cases b <;> simp_all [shape, operands]

/-- An operand is smaller than the operation that reads it. -/
theorem sizeOf_lt_of_mem_operands [SizeOf ν] {a : App ν} {v : ν} (h : v ∈ a.operands) :
    sizeOf v < sizeOf a := by
  cases a <;> simp [operands] at h <;> simp <;> grind

end App

end LiftedCode
