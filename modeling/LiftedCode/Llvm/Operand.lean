/-
Operands of the target language: the names of locals and of blocks, constants,
and operands together with their types. Locals and labels of generated code
come in families that cannot be confused: temporaries are numbered, variables
and assignments keep their identifiers, arguments their positions, and blocks
their addresses.
-/
import LiftedCode.Expr.Value
import LiftedCode.Flow.Label
import LiftedCode.Llvm.Ty

namespace LiftedCode.Llvm

/-- A local variable of a function. -/
inductive Local where
  | temp (number : Nat)
  /-- A variable, under its identifier. -/
  | var (id : Ident)
  | arg (index : Nat)
  | named (name : String)
deriving DecidableEq, Repr, Inhabited

/-- The name of a local, without the mark of locals. -/
def Local.text : Local → String
  | temp n => "t" ++ toString n
  | var id => identText id
  | arg i => "arg" ++ toString i
  | named s => s

/-- The label of a block of the target language. -/
inductive BlockName where
  /-- The block in front of an entry that others lead to. -/
  | init
  | block (label : Label)
  /-- Where a table goes for an index that it does not have. -/
  | tableFailure
  | named (name : String)
deriving DecidableEq, Repr, Inhabited

/-- The name of a block, without the mark of locals. -/
def BlockName.text : BlockName → String
  | init => "init"
  | block l => labelText l
  | tableFailure => "lookup_failure"
  | named s => s

/-- What an instruction reads: a local, a global, or a constant. -/
inductive Operand where
  | reg (name : Local)
  | global (name : String)
  | int (value : Nat)
  /-- The integer of any width with all bits set. -/
  | allOnes
  | bool (b : Bool)
  | undef
  /-- The address of a function, as an integer of 64 bits. -/
  | functionAddress (name : String)
  /-- A constant, as it is written. -/
  | verbatim (text : String)
deriving DecidableEq, Repr, Inhabited

/-- The text of an operand. -/
def Operand.text : Operand → String
  | reg x => "%" ++ x.text
  | global s => "@" ++ s
  | int n => toString n
  | allOnes => "-1"
  | bool b => toString b
  | undef => "undef"
  | functionAddress s => "ptrtoint (ptr @" ++ s ++ " to i64)"
  | verbatim s => s

/-- An operand with its type. -/
structure Typed where
  ty : Ty
  operand : Operand
deriving DecidableEq, Inhabited

namespace Typed

/-- An integer constant. -/
def int (width value : Nat) : Typed := ⟨.int width, .int value⟩

/-- A truth value, which is an integer of one bit. -/
def bool (b : Bool) : Typed := ⟨.int 1, .bool b⟩

/-- The text of an operand after that of its type. -/
def text (x : Typed) : String := x.ty.text ++ " " ++ x.operand.text

/-- The texts of operands with their types. -/
def listText (xs : List Typed) : String := commaSeparated (xs.map text)

end Typed

end LiftedCode.Llvm
