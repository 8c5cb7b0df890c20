/-
Encodings: the term for an operation, given the terms of its operands. An
operation without an exact term has none; what remains is a term of the sort
of the operation's result, at every width that the operation's check admits.
-/
import LiftedCode.Expr.App
import LiftedCode.Smt.Shuffle
import LiftedCode.Trace.Error
import LiftedCode.Trace.Event

namespace LiftedCode.Trace

open Smt (Term)

-- ============================================================ overflow

/-- Whether `a` and `b` added or subtracted, and then the carry, leave the
range of `width` bits. The operation `name` is carried out with one more bit.
The result leaves the unsigned range if the extra bit is set, and the signed
range if the extra bit differs from the one below. -/
def overflowTerm (name : String) (signed : Bool) (width : Nat) (a b carry : Term) :
    Except Fault Term := do
  let extend := if signed then Term.signExtend 1 else Term.zeroExtend 1
  let sum := Term.binary name (extend a) (extend b)
  let r := Term.binary name sum (← Term.ofBool (← Width.add width 1) carry)
  if signed then
    return Term.distinct (Term.bitAt width r) (Term.bitAt (← Width.sub width 1) r)
  else
    return Term.testBit width r

-- ========================================================= bits of a term

/-- The terms combined from the left, or `none` if there are none. -/
def reduceTerms (f : Term → Term → Term) : List Term → Option Term
  | [] => none
  | t :: ts => some (ts.foldl f t)

/-- The number of set bits of a term of `width` bits. -/
def popCountTerm (width : Nat) (x : Term) : Except Fault Term :=
  let bit i := if width = 1 then Term.bitAt i x else Term.zeroExtend (width - 1) (Term.bitAt i x)
  match reduceTerms (Term.binary "bvadd") ((List.range width).map bit) with
  | some t => .ok t
  | none => Term.literal width 0

/-- The bytes of a term of `width` bits in the opposite order. -/
def reverseBytesTerm (width : Nat) (x : Term) : Term :=
  (reduceTerms Term.concat ((List.range (width / 8)).map (Term.byteAt · x))).getD x

/-- The first of some indices whose bit is set in a term of `width` bits, or
`otherwise` if none is. -/
def scanTerm (width : Nat) (x otherwise : Term) (indices : List Nat) : Term :=
  indices.foldr
    (fun i rest => Term.ite (Term.testBit i x) (.bits width (reduceMagnitude width i)) rest)
    otherwise

/-- Whether the low eight bits of a term have an even number of set bits. -/
def evenParityTerm (x : Term) : Term :=
  let parity := (List.range 7).foldl
    (fun acc i => Term.binary "bvxor" acc (Term.bitAt (i + 1) x)) (Term.bitAt 0 x)
  Term.eq parity (.bits 1 0)

-- =========================================================== operations

/-- The function symbol of an operator on two bitvectors that has one. -/
def binarySymbol? : BinaryOp → Option String
  | .add => some "bvadd"
  | .sub => some "bvsub"
  | .mul => some "bvmul"
  | .udiv => some "bvudiv"
  | .urem => some "bvurem"
  | .sdiv => some "bvsdiv"
  | .srem => some "bvsrem"
  | .ult => some "bvult"
  | .ule => some "bvule"
  | .slt => some "bvslt"
  | .sle => some "bvsle"
  | .and => some "bvand"
  | .or => some "bvor"
  | .xor => some "bvxor"
  | .shl => some "bvshl"
  | .shr => some "bvlshr"
  | .sar => some "bvashr"
  | .testBit => none

/-- The term for an operator on two bitvectors. -/
def binaryTerm (op : BinaryOp) (a b : Term) : Term :=
  match binarySymbol? op with
  | some name => Term.binary name a b
  | none => Term.testBit 0 (Term.binary "bvlshr" a b)

/-- The term for an operator on one bitvector, of the given result width. -/
def unaryTerm (op : UnaryOp) (width : Nat) (x : Term) : Except Fault Term :=
  match op with
  | .upperHalf => do Term.extract (← Width.sub (← Width.mul 2 width) 1) width x
  | .lowerHalf => do Term.extract (← Width.sub width 1) 0 x
  | .complement => .ok (Term.complement x)
  | .popCount => popCountTerm width x
  | .reverseBytes => .ok (reverseBytesTerm width x)
  | .scanForward => do
    return scanTerm width x (← Term.literal width width) (List.range width)
  | .scanReverse => do
    return scanTerm width x (← Term.ones width) (List.range width).reverse

/-- The term for an operator on two bitvectors and a carry. -/
def carryTerm (op : CarryOp) (width : Nat) (a b carry : Term) : Except Fault Term :=
  match op with
  | .adc => do
    return Term.binary "bvadd" (Term.binary "bvadd" a b) (← Term.ofBool width carry)
  | .sbb => do
    return Term.binary "bvsub" (Term.binary "bvsub" a b) (← Term.ofBool width carry)
  | .uadcOverflows => overflowTerm "bvadd" false width a b carry
  | .sadcOverflows => overflowTerm "bvadd" true width a b carry
  | .usbbOverflows => overflowTerm "bvsub" false width a b carry
  | .ssbbOverflows => overflowTerm "bvsub" true width a b carry

/-- The term for an operator on two truth values. -/
def logicTerm : LogicOp → Term → Term → Term
  | .and => Term.and
  | .or => Term.or
  | .xor => Term.xor

/-- The term for a bitvector brought from one width to another. -/
def resizeTerm (op : ResizeOp) (x : Term) (src dst : Nat) : Except Fault Term :=
  match op with
  | .truncate => do Term.extract (← Width.sub dst 1) 0 x
  | .signExtend => do return Term.signExtend (← Width.sub dst src) x
  | .zeroExtend => do return Term.zeroExtend (← Width.sub dst src) x

/-- The term for the bits of a value at another type. All types but that of
truth values are bitvectors to verification. -/
def bitcastTerm (x : Term) (src dst : Ty) : Except Fault Term :=
  match src, dst with
  | .bool, .bool => .ok x
  | .bool, _ => Term.ofBool 1 x
  | _, .bool => .ok (Term.testBit 0 x)
  | _, _ => .ok x

/-- The term for an operation on values, or `none` if it has no exact one.
`look` gives the terms of the operands, from left to right. Operations without
an exact term do not look at their operands. -/
def appTerm {ν : Type} (look : ν → Except TraceError Term) (app : App ν) :
    Except TraceError (Option Term) := do
  match app with
  | .eq a b => return some (Term.eq (← look a) (← look b))
  | .mux t c a b =>
    match ← checkedSortOf t with
    | none => return none
    | some _ => return some (Term.ite (← look c) (← look a) (← look b))
  | .logic op a b => return some (logicTerm op (← look a) (← look b))
  | .not a => return some (Term.not (← look a))
  | .resize op a v w => return some (← resizeTerm op (← look a) v w)
  | .bitcast a t u => return some (← bitcastTerm (← look a) t u)
  | .field _ _ _ => return none
  | .concat _ _ a b => return some (Term.concat (← look a) (← look b))
  | .evenParity a => return some (evenParityTerm (← look a))
  | .unary op w a => return some (← unaryTerm op w (← look a))
  | .binary op _ a b => return some (binaryTerm op (← look a) (← look b))
  | .carry op w a b c =>
    return some (← carryTerm op w (← look a) (← look b) (← look c))
  | .floatUnary _ _ _ | .floatBinary _ _ _ _ | .floatConvert _ _ _ | .floatOfSigned _ _ _
  | .signedOfFloat _ _ _ => return none

/-- The term for a machine function, or `none` if it has no exact one. -/
def machineFnTerm {ν : Type} (look : ν → Except TraceError Term) :
    MachineFn ν → Except TraceError (Option Term)
  | .shuffleBytes 16 src index => do
    return some (Term.shuffle128 (← look src) (← look index))
  | _ => .ok none

end LiftedCode.Trace
