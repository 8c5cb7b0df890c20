/-
Machine blocks: runs of machine instructions without jumps between them. A
block ends by handing the state of the registers on to whatever comes next, in
an exit from the code, or where an instruction could not be translated.
-/
import LiftedCode.Data.Dict
import LiftedCode.Stmt

namespace LiftedCode

/-- The values of registers at the end of a block. -/
abbrev RegisterValues := Dict Register Value

/-- How a machine block ends. -/
inductive BlockEnd where
  /-- Execution goes on from the given registers. -/
  | fetch (regs : RegisterValues)
  /-- The instruction at the end could not be translated. -/
  | untranslated (regs : RegisterValues) (message : String)
  | exit (exit : MachineExit) (regs : RegisterValues)
deriving Inhabited

/-- The registers at the end of a block. -/
def BlockEnd.regs : BlockEnd → RegisterValues
  | fetch regs | untranslated regs _ | exit _ regs => regs

/-- A run of machine instructions without jumps between them. -/
structure MachineBlock where
  addr : Nat
  /-- The number of bytes of machine code that the block covers. -/
  size : Nat
  stmts : List Stmt
  ending : BlockEnd
deriving Inhabited

end LiftedCode
