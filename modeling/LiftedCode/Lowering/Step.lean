/-
Steps of the lowering of a block: what it knows, what it has produced so far,
and the few ways in which instructions come about. Temporaries are numbered in
one sequence through all blocks of a routine. Values are bound for one block
only.
-/
import LiftedCode.Llvm.Intrinsic
import LiftedCode.Lowering.Declarations
import LiftedCode.Options

namespace LiftedCode.Lowering

open Llvm (Typed Local Instr Op BinaryOperator IntPredicate CastOperator Declaration)

/-- The target of the lowering: the choices for its code, and the byte order of
its memory. -/
structure Target where
  options : Options
  order : ByteOrder
deriving Inhabited

/-- What the lowering of a block is given. -/
structure Env where
  target : Target
  label : Label
  /-- The types of the routine's arguments. -/
  args : List Ty
deriving Inhabited

/-- What the lowering of a block has produced. -/
structure State where
  nextTemp : Nat
  declarations : Declarations
  /-- The operands that assignments and variables of the block stand for. -/
  values : Dict Ident Typed
  instrs : Array Instr
  log : Log
deriving Inhabited

/-- A step of the lowering of a block. -/
abbrev Step (α : Type) := ExceptT LoweringError (StateM State) α

namespace Step

-- ========================================================= primitive steps

/-- Carry out a computation that does not touch the state. -/
def ofExcept {α : Type} (x : Except LoweringError α) : Step α := ExceptT.mk (pure x)

/-- A check of the code that is lowered. -/
def check {α : Type} (x : Except CodeError α) : Step α := ofExcept (x.mapError .code)

/-- Arithmetic that may leave its range. -/
def ofFault {α : Type} (x : Except Fault α) : Step α := ofExcept (x.mapError (.code ∘ .fault))

/-- Refuse an access with a layout. The wording shows the layout, so its widths
have to be 32-bit numbers. -/
def refuse {α : Type} (what : Layout → Unsupported) (l : Layout) : Step α := do
  let _ ← ofFault l.checkedText
  throw (.unsupported (what l))

/-- Add an instruction. -/
def emit (i : Instr) : Step Unit := modify fun s => { s with instrs := s.instrs.push i }

/-- Assign the result of an operation to a fresh temporary. -/
def assign (ty : Llvm.Ty) (op : Op) : Step Typed := do
  let s ← get
  let dst := Local.temp s.nextTemp
  set { s with nextTemp := s.nextTemp + 1, instrs := s.instrs.push (.assign dst op) }
  return ⟨ty, .reg dst⟩

/-- Ask for a function to be declared. -/
def declare (d : Declaration) : Step Unit :=
  ExceptT.mk fun s =>
    match (s.declarations.declare d).run s.log with
    | (.ok ds, log) => (.ok (), { s with declarations := ds, log := log })
    | (.error e, log) => (.error e, { s with log := log })

/-- Bind a value, which must not be bound yet. -/
def bind (id : Ident) (x : Typed) : Step Unit := do
  let bound := (← get).values.contains id
  modify fun s => { s with values := s.values.insert id x }
  if bound then
    throw (.code (.duplicateAssignment id))

/-- The operand that a value is bound to. -/
def bound (id : Ident) : Step Typed := do
  match (← get).values.get? id with
  | some x => return x
  | none => throw (.unboundValue id)

-- ================================================= instructions by shape

/-- An operator on two operands of the type of the first. -/
def binary (op : BinaryOperator) (a b : Typed) : Step Typed :=
  assign a.ty (.binary op a b.operand)

/-- Compare two integers. -/
def compare (pred : IntPredicate) (a b : Typed) : Step Typed :=
  assign (.int 1) (.compare pred a b.operand)

/-- Convert a value to a type. -/
def cast (op : CastOperator) (a : Typed) (ty : Llvm.Ty) : Step Typed := assign ty (.cast op a ty)

/-- A choice between two operands of one type. -/
def select (c a b : Typed) : Step Typed := assign a.ty (.select c a b)

/-- An integer address as a pointer. -/
def pointer (addr : Typed) : Step Typed := cast .intToPtr addr .ptr

/-- A call of a declared function that returns a value. -/
def call (d : Declaration) (args : List Typed) : Step Typed := do
  declare d
  assign d.ret (.call false d.ret (.global d.name) args)

/-- A call of a declared function that returns nothing. -/
def callVoid (d : Declaration) (args : List Typed) : Step Unit := do
  emit (.call d.name args)
  declare d

end Step

-- =============================================================== values

/-- The operand for a value. A function is declared where its address is used. -/
def value (env : Env) : Value → Step Typed
  | .bits l => return .int l.width l.magnitude
  | .bool b => return .bool b
  | .assigned a => Step.bound a.id
  | .phi v | .returned v => Step.bound v.id
  | .initial r => throw (.initialRegister r)
  | .arg i t => do
    match env.args[i]? with
    | none => throw (.argumentOutOfRange i env.args.length)
    | some expected =>
      Step.check (expectTy (.argument i) expected t)
      return ⟨.ofTy t, .reg (.arg i)⟩
  | .entry f => do
    Step.declare (.ofFunction f.name f.signature)
    return ⟨.int 64, .functionAddress f.name⟩

end LiftedCode.Lowering
