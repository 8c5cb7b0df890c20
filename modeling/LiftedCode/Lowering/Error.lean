/-
Errors of the lowering to the target language. Each of them ends the lowering
of the routine, or of the step that assembles a module.
-/
import LiftedCode.Expr.Error
import LiftedCode.Llvm.Ty

namespace LiftedCode.Lowering

/-- Something for which there is no code. -/
inductive Unsupported where
  | aggregateComparison (ty : Llvm.Ty)
  | swappedAccess (layout : Layout)
  | byteReversal (ty : Llvm.Ty)
  | packedReadIf (layout : Layout)
  | packedWriteIf (layout : Layout)
  | shuffle (bytes : Nat)
  | repeatStore (bytes : Nat)
  /-- A string operation that may run backwards. -/
  | direction (stmt : MachineStmt Value)
deriving Inhabited

/-- What is said of code that is not supported. -/
def Unsupported.text (style : ValueStyle) : Unsupported → String
  | aggregateComparison t => "comparison of aggregate values of type " ++ t.text
  | swappedAccess l => "byte-swapped access of " ++ l.text
  | byteReversal t => "byte reversal of " ++ t.text
  | packedReadIf l => "conditional read of packed vector " ++ l.text
  | packedWriteIf l => "conditional write of packed vector " ++ l.text
  | shuffle n => "pshufb on " ++ toString n ++ "-byte vectors"
  | repeatStore n => "rep stos of " ++ toString n ++ "-byte elements"
  | direction s => s.text (Value.text style) ++ " with a direction flag that may be set"

/-- A reason for which a routine has no code, or a module cannot take it. -/
inductive LoweringError where
  | code (error : CodeError)
  | unsupported (what : Unsupported)
  | initialRegister (reg : Register)
  /-- A value used where no earlier part of its block binds it. -/
  | unboundValue (id : Ident)
  | argumentOutOfRange (index count : Nat)
  | signatureMismatch (name : String) (expected found : Signature)
  | variadicCall (label : Label)
  | tailCallReturns (label : Label) (caller callee : List Ty)
  | returnArity (label : Label) (expected found : Nat)
  | phiUnavailable (var : Ident) (reg : Register) (pred : Label)
  | phisWithoutPredecessors (label : Label)
  | tableTooLarge (label : Label) (width targets : Nat)
  | conflictingDeclaration (name : String)
deriving Inhabited

/-- The kind of an error, by which errors are told apart without their details. -/
def LoweringError.kind : LoweringError → String
  | code e => e.kind
  | unsupported _ => "Unsupported"
  | initialRegister _ => "InitialRegister"
  | unboundValue _ => "UnboundValue"
  | argumentOutOfRange _ _ => "ArgumentOutOfRange"
  | signatureMismatch _ _ _ => "FunctionTypeMismatch"
  | variadicCall _ => "VarArgsCall"
  | tailCallReturns _ _ _ => "TailCallReturnMismatch"
  | returnArity _ _ _ => "ReturnArity"
  | phiUnavailable _ _ _ => "PhiValueUnavailable"
  | phisWithoutPredecessors _ => "PhisWithoutPredecessors"
  | tableTooLarge _ _ _ => "LookupTableTooLarge"
  | conflictingDeclaration _ => "ConflictingDeclaration"

/-- The wording of an error; a fault has one only if it violates an assertion. -/
def LoweringError.message? (style : ValueStyle) : LoweringError → Option String
  | code e => e.message?
  | unsupported u => some ("unsupported: " ++ u.text style)
  | initialRegister r =>
    some ("register " ++ r.name ++ " read directly in function-level IR")
  | unboundValue id => some (identText id ++ " used outside the block that defines it")
  | argumentOutOfRange i n =>
    some ("argument " ++ toString i ++ " out of range for a function of " ++ toString n
      ++ " arguments")
  | signatureMismatch name expected found =>
    some ("call to " ++ name ++ ": expected type " ++ expected.text ++ ", found "
      ++ found.text)
  | variadicCall l => some ("variable-argument call in block " ++ labelText l)
  | tailCallReturns l caller callee =>
    some ("tail call in block " ++ labelText l ++ " returns ("
      ++ commaSeparated (callee.map Ty.text) ++ ") but the caller returns ("
      ++ commaSeparated (caller.map Ty.text) ++ ")")
  | returnArity l expected found =>
    some ("return in block " ++ labelText l ++ " has " ++ toString found
      ++ " slots, expected " ++ toString expected)
  | phiUnavailable var reg pred =>
    some ("no value for phi " ++ identText var ++ " (register " ++ reg.name
      ++ ") on the edge from block " ++ labelText pred)
  | phisWithoutPredecessors l =>
    some ("block " ++ labelText l ++ " has phi bindings but no predecessors")
  | tableTooLarge l w n =>
    some ("lookup table in block " ++ labelText l ++ " has " ++ toString n
      ++ " targets, more than a " ++ toString w ++ "-bit index reaches")
  | conflictingDeclaration name => some ("conflicting declarations of @" ++ name)

instance : MonadLift (Except CodeError) (Except LoweringError) := ⟨fun x => x.mapError .code⟩

end LiftedCode.Lowering
