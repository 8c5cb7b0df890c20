/-
Statements: assignments, writes to memory, calls, machine statements, and the
comments and instruction marks that say where the code came from. Writes are
built either as they are or through checks of their operands.
-/
import LiftedCode.Expr.Check
import LiftedCode.Expr.Order

namespace LiftedCode

/-- A call. The variables take the leading values that the function returns. -/
structure Call where
  dest : Value
  signature : Signature
  args : List Value
  returns : List Variable
deriving Inhabited

/-- A statement of a block. -/
inductive Stmt where
  | assign (a : Assignment Value)
  | write (addr : Value) (layout : Layout) (value : Value)
  /-- A write that happens only if the condition holds. -/
  | writeIf (cond addr : Value) (layout : Layout) (value : Value)
  | call (call : Call)
  | machine (stmt : MachineStmt Value)
  /-- A remark without effect. -/
  | comment (text : String)
  /-- The start of a machine instruction, `offset` bytes into its block. -/
  | instruction (offset : Nat) (mnemonic : String)
deriving Inhabited

namespace Stmt

/-- A write to an address, of a value that has the layout's type. -/
def ofWrite (addr : Value) (layout : Layout) (value : Value) : Except CodeError Stmt := do
  let _ ← expectBits .writeAddress addr.ty
  expectTy .writeValue (← layout.checkedTy) value.ty
  return write addr layout value

/-- A conditional write to an address, of a value that has the layout's type. -/
def ofWriteIf (cond addr : Value) (layout : Layout) (value : Value) :
    Except CodeError Stmt := do
  expectTy .writeIfCondition .bool cond.ty
  let _ ← expectBits .writeIfAddress addr.ty
  expectTy .writeIfValue (← layout.checkedTy) value.ty
  return writeIf cond addr layout value

/-- The values that the statement reads, in order; an assignment reads the
operands of its right-hand side. -/
def operands : Stmt → List Value
  | assign a => a.rhs.operands
  | write a _ v => [a, v]
  | writeIf c a _ v => [c, a, v]
  | call c => c.dest :: c.args
  | machine s => s.operands
  | comment _ | instruction _ _ => []

/-- The identifiers that the statement binds. -/
def binds : Stmt → List Ident
  | assign a => [a.id]
  | call c => c.returns.map (·.id)
  | _ => []

/-- The written form of a statement. -/
def text (style : ValueStyle) : Stmt → String
  | assign a => a.text style
  | write a l v => blankSeparated ["write_mem", a.text style, l.text, v.text style]
  | writeIf c a l v =>
    blankSeparated ["cond_write_mem", c.text style, a.text style, l.text, v.text style]
  | call c =>
    (if c.returns.isEmpty then ""
      else commaSeparated (c.returns.map fun v => identText v.id) ++ " := ")
      ++ "call " ++ c.dest.text style ++ "(" ++ commaSeparated (c.args.map (Value.text style))
      ++ ")"
  | machine s => s.text (Value.text style)
  | comment c => "# " ++ c
  | instruction offset name => "# " ++ Numeral.hex offset ++ ": " ++ name

/-- Whether the written form names no width beyond 32 bits. -/
def textFits : Stmt → Bool
  | assign a => a.rhs.textFits
  | write _ l _ | writeIf _ _ l _ => l.bitsFit
  | _ => true

/-- The written form, its widths computed in 32 bits. -/
def checkedText (style : ValueStyle) (s : Stmt) : Except Fault String :=
  inRange s.textFits (s.text style)

/-- Whether two statements are the same, on operands that compare equal. Their
parts are compared in order, up to the first difference. -/
def checkedSame : Stmt → Stmt → Except Fault Bool
  | assign a, assign b => a.checkedSame b
  | write a l v, write b m w => allTrue [a.checkedSame b, .ok (l == m), v.checkedSame w]
  | writeIf c a l v, writeIf d b m w =>
    allTrue [c.checkedSame d, a.checkedSame b, .ok (l == m), v.checkedSame w]
  | call c, call d =>
    allTrue [c.dest.checkedSame d.dest, .ok (c.signature == d.signature),
      Value.checkedSameAll c.args d.args, .ok (c.returns == d.returns)]
  | machine s, machine t =>
    if s.shape = t.shape then
      Value.checkedSameAll s.operands t.operands
    else .ok false
  | comment c, comment d => .ok (c == d)
  | instruction i n, instruction j m => .ok (i == j && n == m)
  | _, _ => .ok false

end Stmt

end LiftedCode
