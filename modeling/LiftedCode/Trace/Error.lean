/-
Errors of tracing a machine block. Each of them ends the trace of the block.
-/
import LiftedCode.Expr.Error

namespace LiftedCode.Trace

/-- A reason for which a block has no events. -/
inductive TraceError where
  | code (error : CodeError)
  | missingRegister (reg : Register)
  /-- A value that has a meaning only in a routine. -/
  | routineValue (v : Value)
  | unboundAssignment (id : Ident)
  /-- A value without a sort, such as a tuple. -/
  | opaqueValue (id : Ident)
  | unclassified (addr : Nat)
  | conditionalRead (id : Ident)
  | conditionalWrite (addr : Nat)
  | call (addr : Nat)
  | machineStmt (addr : Nat) (stmt : MachineStmt Value)
  | untranslated (addr : Nat) (message : String)
  | machineExit (addr : Nat) (exit : MachineExit)
deriving Inhabited

/-- The kind of an error, by which errors are told apart without their details. -/
def TraceError.kind : TraceError → String
  | code e => e.kind
  | missingRegister _ => "MissingInitialRegister"
  | routineValue _ => "FunctionLevelValue"
  | unboundAssignment _ => "UnboundAssignment"
  | opaqueValue _ => "OpaqueValue"
  | unclassified _ => "MissingClassification"
  | conditionalRead _ => "UnsupportedConditionalRead"
  | conditionalWrite _ => "UnsupportedConditionalWrite"
  | call _ => "UnsupportedCall"
  | machineStmt _ _ => "UnsupportedArchStmt"
  | untranslated _ _ => "TranslateError"
  | machineExit _ _ => "ArchTerminator"

/-- The wording of an error; a fault has one only if it violates an assertion. -/
def TraceError.message? (style : ValueStyle) : TraceError → Option String
  | code e => e.message?
  | missingRegister r => some ("no initial value for register " ++ r.name)
  | routineValue v => some ("function-level value " ++ v.text style ++ " in a machine block")
  | unboundAssignment id =>
    some ("assignment " ++ identText id ++ " used before it is defined")
  | opaqueValue id => some ("value " ++ identText id ++ " has no term representation")
  | unclassified addr =>
    some ("no memory access classification for instruction at " ++ Numeral.hex addr)
  | conditionalRead id =>
    some ("conditional memory read " ++ identText id ++ " is not supported")
  | conditionalWrite addr =>
    some ("conditional memory write at " ++ Numeral.hex addr ++ " is not supported")
  | call addr => some ("call at " ++ Numeral.hex addr ++ " inside a machine block")
  | machineStmt addr s =>
    some ("unsupported statement at " ++ Numeral.hex addr ++ ": " ++ s.text (Value.text style))
  | untranslated addr message =>
    some ("translation error at " ++ Numeral.hex addr ++ ": " ++ message)
  | machineExit addr e =>
    some ("block ends in architecture terminator " ++ e.text ++ " at " ++ Numeral.hex addr)

instance : MonadLift (Except CodeError) (Except TraceError) := ⟨fun x => x.mapError .code⟩

end LiftedCode.Trace
