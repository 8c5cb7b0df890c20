/-
Errors of malformed code: what can be wrong with values, assignments, blocks
and functions before any backend looks at them. Each error names what is
wrong and where, and its wording is given once.
-/
import LiftedCode.Expr.Value
import LiftedCode.Flow.Label

namespace LiftedCode

/-- The place where a type was expected. -/
inductive Site where
  /-- An operand of the operation with the given name. -/
  | operand (index : Nat) (mnemonic : String)
  /-- The operand that fixes the width of an operation. -/
  | firstOperand
  | onlyOperand
  | resized (op : ResizeOp)
  | undefinedValue
  | read
  | readAddress
  | readIf
  | readIfCondition
  | readIfAddress
  | readIfDefault
  | machineFunction
  | writeAddress
  | writeValue
  | writeIfCondition
  | writeIfAddress
  | writeIfValue
  | argument (index : Nat)
  | branchCondition (label : Label)
  | tableIndex
  | returnSlot (index : Nat)
  | callDestination
  | callArgument (index : Nat)
  | returnedValue (id : Ident)
  | phi (id : Ident)
  /-- The operation with the given name as a whole. -/
  | operation (mnemonic : String)
deriving DecidableEq, Inhabited

/-- How a place is named in a message. -/
def Site.text : Site → String
  | operand i name => "operand " ++ toString i ++ " of " ++ name
  | firstOperand => "first operand"
  | onlyOperand => "operand"
  | resized op => op.mnemonic
  | undefinedValue => "undefined value"
  | read => "memory read"
  | readAddress => "memory read address"
  | readIf => "conditional memory read"
  | readIfCondition => "conditional read condition"
  | readIfAddress => "conditional read address"
  | readIfDefault => "conditional read default"
  | machineFunction => "architecture function"
  | writeAddress => "memory write address"
  | writeValue => "memory write value"
  | writeIfCondition => "conditional write condition"
  | writeIfAddress => "conditional write address"
  | writeIfValue => "conditional write value"
  | argument i => "argument " ++ toString i
  | branchCondition l => "branch condition in " ++ labelText l
  | tableIndex => "lookup table index"
  | returnSlot i => "return slot " ++ toString i
  | callDestination => "call destination"
  | callArgument i => "call argument " ++ toString i
  | returnedValue id => "return value " ++ identText id
  | phi id => "phi " ++ identText id
  | operation name => name

/-- What is wrong with a piece of code. -/
inductive CodeError where
  | fault (fault : Fault)
  | duplicateAssignment (id : Ident)
  | blockNotFound (label : Label)
  | duplicateBlock (label : Label)
  | overlappingBlocks (first second : Label)
  | phiInEntryBlock (label : Label)
  | typeMismatch (site : Site) (expected found : Ty)
  | expectedBits (site : Site) (found : Ty)
  /-- An operation cannot bring one width to the other. -/
  | invalidWidths (mnemonic : String) (src dst : Nat)
  | zeroWidth (site : Site)
  | fieldOutOfRange (index count : Nat)
deriving DecidableEq, Inhabited

namespace CodeError

/-- The kind of an error, by which errors are told apart without their details. -/
def kind : CodeError → String
  | fault _ => "Fault"
  | duplicateAssignment _ => "DuplicateAssignment"
  | blockNotFound _ => "BlockNotFound"
  | duplicateBlock _ => "DuplicateBlock"
  | overlappingBlocks _ _ => "OverlappingBlocks"
  | phiInEntryBlock _ => "PhiInEntryBlock"
  | typeMismatch _ _ _ => "TypeMismatch"
  | expectedBits _ _ => "ExpectedBitvector"
  | invalidWidths _ _ _ => "InvalidWidths"
  | zeroWidth _ => "ZeroWidth"
  | fieldOutOfRange _ _ => "TupleIndexOutOfRange"

/-- The wording of an error; a fault has one only if it violates an assertion. -/
def message? : CodeError → Option String
  | fault f => f.assertion?
  | duplicateAssignment id =>
    some ("assignment " ++ identText id ++ " is defined more than once")
  | blockNotFound l => some ("block " ++ labelText l ++ " not found")
  | duplicateBlock l => some ("block " ++ labelText l ++ " is defined more than once")
  | overlappingBlocks a b =>
    some ("blocks " ++ labelText a ++ " and " ++ labelText b ++ " overlap")
  | phiInEntryBlock l => some ("entry block " ++ labelText l ++ " cannot have phi bindings")
  | typeMismatch site expected found =>
    some (site.text ++ ": expected type " ++ expected.text ++ ", found " ++ found.text)
  | expectedBits site found =>
    some (site.text ++ ": expected a bitvector, found " ++ found.text)
  | invalidWidths name v w =>
    some (name ++ ": invalid widths " ++ toString v ++ " -> " ++ toString w)
  | zeroWidth site => some (site.text ++ ": zero-width type")
  | fieldOutOfRange i n =>
    some ("tuple field " ++ toString i ++ " out of range for a tuple of " ++ toString n
      ++ " fields")

end CodeError

instance : MonadLift (Except Fault) (Except CodeError) := ⟨fun x => x.mapError .fault⟩

/-- Require one type where another may have been found. -/
def expectTy (site : Site) (expected found : Ty) : Except CodeError Unit :=
  if expected = found then .ok () else .error (.typeMismatch site expected found)

/-- Require the type of a bitvector, and give its width. -/
def expectBits (site : Site) (found : Ty) : Except CodeError Nat :=
  match found.bitsWidth? with
  | some w => .ok w
  | none => .error (.expectedBits site found)

/-- Require a type without parts of zero width. -/
def expectNonempty (site : Site) (t : Ty) : Except CodeError Unit :=
  if t.nonempty then .ok () else .error (.zeroWidth site)

end LiftedCode
