/-
Instructions of the target language, and the transfers of control that end its
blocks. An instruction either assigns the result of an operation to a local or
has an effect; comments stand among the instructions and are none.
-/
import LiftedCode.Llvm.Operand

namespace LiftedCode.Llvm

-- ========================================================== operators

/-- Operators on two operands of one type. -/
inductive BinaryOperator where
  | add
  | sub
  | mul
  | udiv
  | urem
  | sdiv
  | srem
  | and
  | or
  | xor
  | shl
  | lshr
  | ashr
  | fadd
  | fsub
  | fmul
  | fdiv
deriving DecidableEq, Repr, Inhabited

/-- The keyword of an operator. -/
def BinaryOperator.text : BinaryOperator → String
  | add => "add"
  | sub => "sub"
  | mul => "mul"
  | udiv => "udiv"
  | urem => "urem"
  | sdiv => "sdiv"
  | srem => "srem"
  | and => "and"
  | or => "or"
  | xor => "xor"
  | shl => "shl"
  | lshr => "lshr"
  | ashr => "ashr"
  | fadd => "fadd"
  | fsub => "fsub"
  | fmul => "fmul"
  | fdiv => "fdiv"

/-- How integers are compared. -/
inductive IntPredicate where
  | eq
  | ult
  | ule
  | slt
  | sle
deriving DecidableEq, Repr, Inhabited

/-- The keyword of a comparison of integers. -/
def IntPredicate.text : IntPredicate → String
  | eq => "eq"
  | ult => "ult"
  | ule => "ule"
  | slt => "slt"
  | sle => "sle"

/-- How floating-point numbers are compared. -/
inductive FloatPredicate where
  | orderedLess
  | orderedEqual
  | unordered
deriving DecidableEq, Repr, Inhabited

/-- The keyword of a comparison of floating-point numbers. -/
def FloatPredicate.text : FloatPredicate → String
  | orderedLess => "olt"
  | orderedEqual => "oeq"
  | unordered => "uno"

/-- A conversion of a value to another type. -/
inductive CastOperator where
  | trunc
  | zext
  | sext
  | bitcast
  | intToPtr
  | floatExtend
  | floatTruncate
  | signedToFloat
  | floatToSigned
deriving DecidableEq, Repr, Inhabited

/-- The keyword of a conversion. -/
def CastOperator.text : CastOperator → String
  | trunc => "trunc"
  | zext => "zext"
  | sext => "sext"
  | bitcast => "bitcast"
  | intToPtr => "inttoptr"
  | floatExtend => "fpext"
  | floatTruncate => "fptrunc"
  | signedToFloat => "sitofp"
  | floatToSigned => "fptosi"

-- ========================================================== operations

/-- Machine code that produces a value. -/
inductive AsmValue where
  | readFsBase
  | readGsBase
  | cpuid (leaf subleaf : Typed)
  | readControl (index : Typed)
deriving DecidableEq, Inhabited

namespace AsmValue

/-- The type of the result. -/
def ty : AsmValue → Ty
  | readFsBase | readGsBase => .int 64
  | cpuid _ _ => .struct (List.replicate 4 (.int 32))
  | readControl _ => .struct (List.replicate 2 (.int 32))

/-- The operands of the machine code. -/
def args : AsmValue → List Typed
  | readFsBase | readGsBase => []
  | cpuid a b => [a, b]
  | readControl a => [a]

/-- The machine code, and where its results and operands are. -/
def code : AsmValue → String
  | readFsBase => "\"rdfsbase $0\", \"=r\""
  | readGsBase => "\"rdgsbase $0\", \"=r\""
  | cpuid _ _ =>
    "\"cpuid\", \"=\x7bax\x7d,=\x7bbx\x7d,=\x7bcx\x7d,=\x7bdx\x7d,\x7bax\x7d,\x7bcx\x7d\""
  | readControl _ => "\"xgetbv\", \"=\x7bax\x7d,=\x7bdx\x7d,\x7bcx\x7d\""

end AsmValue

/-- Machine code that has an effect. -/
inductive AsmEffect where
  /-- Store the x87 control word, two bytes, at a pointer. -/
  | storeX87Control (ptr : Operand)
  | emptyMmx
deriving DecidableEq, Inhabited

/-- The machine code, and its operands. -/
def AsmEffect.text : AsmEffect → String
  | storeX87Control p => "\"fnstcw $0\", \"=*m\"(ptr elementtype(i16) " ++ p.text ++ ")"
  | emptyMmx => "\"emms\", \"\"()"

/-- An operation that produces a value. -/
inductive Op where
  /-- Two operands of the type of the first. -/
  | binary (op : BinaryOperator) (a : Typed) (b : Operand)
  | compare (pred : IntPredicate) (a : Typed) (b : Operand)
  | floatCompare (pred : FloatPredicate) (a : Typed) (b : Operand)
  | cast (op : CastOperator) (a : Typed) (ty : Ty)
  | select (cond a b : Typed)
  | extractValue (aggregate : Typed) (index : Nat)
  | insertValue (aggregate elem : Typed) (index : Nat)
  /-- The first element of a vector. -/
  | extractFirst (vector : Typed)
  /-- A vector with its first element replaced. -/
  | insertFirst (vector elem : Typed)
  /-- A value in memory, at a pointer of any alignment. -/
  | load (ty : Ty) (ptr : Typed)
  | call (tail : Bool) (ty : Ty) (callee : Operand) (args : List Typed)
  | asm (code : AsmValue)
deriving DecidableEq, Inhabited

/-- The text of an operation, as it stands to the right of the local that it defines. -/
def Op.text : Op → String
  | binary op a b => op.text ++ " " ++ a.text ++ ", " ++ b.text
  | compare pred a b => "icmp " ++ pred.text ++ " " ++ a.text ++ ", " ++ b.text
  | floatCompare pred a b => "fcmp " ++ pred.text ++ " " ++ a.text ++ ", " ++ b.text
  | cast op a t => op.text ++ " " ++ a.text ++ " to " ++ t.text
  | select c a b => "select " ++ Typed.listText [c, a, b]
  | extractValue a i => "extractvalue " ++ a.text ++ ", " ++ toString i
  | insertValue a x i => "insertvalue " ++ a.text ++ ", " ++ x.text ++ ", " ++ toString i
  | extractFirst v => "extractelement " ++ v.text ++ ", i32 0"
  | insertFirst v x => "insertelement " ++ v.text ++ ", " ++ x.text ++ ", i32 0"
  | load t p => "load " ++ t.text ++ ", " ++ p.text ++ ", align 1"
  | call tail t f args =>
    (if tail then "tail " else "") ++ "call " ++ t.text ++ " " ++ f.text ++ "("
      ++ Typed.listText args ++ ")"
  | asm c =>
    "call " ++ c.ty.text ++ " asm sideeffect " ++ c.code ++ "(" ++ Typed.listText c.args ++ ")"

-- ========================================================= instructions

/-- An instruction, or a comment among the instructions. -/
inductive Instr where
  | comment (text : String)
  | assign (dst : Local) (op : Op)
  /-- Store a value at a pointer of any alignment. -/
  | store (value ptr : Typed)
  /-- Call a function that returns nothing. -/
  | call (callee : String) (args : List Typed)
  | asm (code : AsmEffect)
deriving DecidableEq, Inhabited

/-- The text of an instruction. -/
def Instr.text : Instr → String
  | comment s => "; " ++ s
  | assign x op => "%" ++ x.text ++ " = " ++ op.text
  | store v p => "store " ++ v.text ++ ", " ++ p.text ++ ", align 1"
  | call f args => "call void @" ++ f ++ "(" ++ Typed.listText args ++ ")"
  | asm c => "call void asm sideeffect " ++ c.text

/-- How a block ends. -/
inductive Terminator where
  | jump (target : BlockName)
  | branch (cond : Typed) (yes no : BlockName)
  /-- Go to the target with the index as its constant of `width` bits, or to
  the default. -/
  | switch (index : Typed) (default : BlockName) (width : Nat)
    (targets : List (Nat × BlockName))
  | ret (value : Typed)
  | unreachable
deriving DecidableEq, Inhabited

/-- The text of a terminator. -/
def Terminator.text : Terminator → String
  | jump l => "br label %" ++ l.text
  | branch c l m => "br " ++ c.text ++ ", label %" ++ l.text ++ ", label %" ++ m.text
  | switch i l w ts =>
    "switch " ++ i.text ++ ", label %" ++ l.text ++ " [ "
      ++ blankSeparated (ts.map fun e =>
        "i" ++ toString w ++ " " ++ toString e.1 ++ ", label %" ++ e.2.text)
      ++ " ]"
  | ret v => "ret " ++ v.text
  | unreachable => "unreachable"

end LiftedCode.Llvm
