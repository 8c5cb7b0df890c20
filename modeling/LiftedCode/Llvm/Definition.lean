/-
Definitions, declarations and modules of the target language. A definition is
over any types of instructions and terminators, which are written as their own
forms say.
-/
import LiftedCode.Llvm.Instr

namespace LiftedCode.Llvm

/-- The choice of a value by the edge on which control came in. -/
structure Phi where
  name : Local
  ty : Ty
  /-- Values and the blocks that they come from, once per edge. -/
  incoming : List (Operand × BlockName)
deriving DecidableEq, Inhabited

/-- The line of a phi variable. -/
def Phi.text (p : Phi) : String :=
  "%" ++ p.name.text ++ " = phi " ++ p.ty.text ++ " "
    ++ commaSeparated (p.incoming.map fun e => "[ " ++ e.1.text ++ ", %" ++ e.2.text ++ " ]")

/-- What has a written form of its own. -/
class Written (α : Type) where
  written : α → String

instance : Written String := ⟨id⟩

instance : Written Instr := ⟨Instr.text⟩

instance : Written Terminator := ⟨Terminator.text⟩

/-- A basic block, over its instructions and its terminator. -/
structure Block (ι τ : Type) where
  label : BlockName
  phis : List Phi
  instrs : List ι
  terminator : τ
deriving DecidableEq, Inhabited

/-- The written form: the label, and then a line for everything else. -/
def Block.text {ι τ : Type} [Written ι] [Written τ] (b : Block ι τ) : String :=
  b.label.text ++ ":\n"
    ++ String.join ((b.phis.map Phi.text ++ b.instrs.map Written.written
      ++ [Written.written b.terminator]).map fun l => "  " ++ l ++ "\n")

/-- A function with a body. -/
structure Definition (ι τ : Type) where
  name : String
  ret : Ty
  params : List (Ty × Local)
  /-- The blocks, the entry first. -/
  blocks : List (Block ι τ)
deriving DecidableEq, Inhabited

/-- The written form, with an empty line between each two blocks. -/
def Definition.text {ι τ : Type} [Written ι] [Written τ] (d : Definition ι τ) : String :=
  "define " ++ d.ret.text ++ " @" ++ d.name ++ "("
    ++ commaSeparated (d.params.map fun p => p.1.text ++ " %" ++ p.2.text) ++ ") \x7b\n"
    ++ "\n".intercalate (d.blocks.map Block.text) ++ "\x7d\n"

/-- The declaration of a function that is defined elsewhere. -/
structure Declaration where
  name : String
  ret : Ty
  args : List Ty
  attributes : List String
deriving DecidableEq, Inhabited

/-- The line of a declaration. -/
def Declaration.text (d : Declaration) : String :=
  "declare " ++ d.ret.text ++ " @" ++ d.name ++ "(" ++ commaSeparated (d.args.map Ty.text)
    ++ ")" ++ String.join (d.attributes.map (" " ++ ·))

/-- A module: functions that are declared, and functions that are defined. -/
structure Module (ι τ : Type) where
  declarations : List Declaration
  definitions : List (Definition ι τ)
deriving DecidableEq, Inhabited

/-- The written form: the declarations by name, then the definitions, each
after an empty line. -/
def Module.text {ι τ : Type} [Written ι] [Written τ] (m : Module ι τ) : String :=
  String.join ((m.declarations.mergeSort fun a b => compare a.name b.name != .gt).map
      fun d => d.text ++ "\n")
    ++ String.join (m.definitions.map fun d => "\n" ++ d.text)

end LiftedCode.Llvm
