/-
The types of the target language that stand for the types of values: truth
values are integers of one bit, and functions return a structure of all their
results.
-/
import LiftedCode.Llvm.Definition

namespace LiftedCode.Llvm.Ty

/-- The type that stands for a floating-point format. -/
def ofFormat : FloatFormat → Ty
  | .half => half
  | .single => float
  | .double => double
  | .extended => extended

mutual

/-- The type that stands for a type of values. -/
def ofTy : LiftedCode.Ty → Ty
  | .bool => .int 1
  | .bits w => .int w
  | .float f => ofFormat f
  | .tuple ts => .struct (ofTys ts)
  | .vector n t => .vector n (ofTy t)

/-- The types that stand for several types of values. -/
def ofTys : List LiftedCode.Ty → List Ty
  | [] => []
  | t :: ts => ofTy t :: ofTys ts

end

/-- The type of what a function returns. -/
def ofResults (s : Signature) : Ty := .struct (ofTys s.rets)

end LiftedCode.Llvm.Ty

namespace LiftedCode.Llvm

/-- The declaration of a known function. -/
def Declaration.ofFunction (name : String) (s : Signature) : Declaration :=
  ⟨name, Ty.ofResults s, Ty.ofTys s.args, []⟩

end LiftedCode.Llvm
