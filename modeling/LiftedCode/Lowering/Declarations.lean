/-
Declarations that generated code needs, by name. A name may be declared any
number of times, always in the same way.
-/
import LiftedCode.Data.Dict
import LiftedCode.Llvm.OfTy
import LiftedCode.Log
import LiftedCode.Lowering.Error

namespace LiftedCode.Lowering

open Llvm (Declaration)

/-- Declarations, by name. -/
abbrev Declarations := Dict String Declaration

namespace Declarations

/-- Add a declaration. One for the same name must be the same. -/
def declare (ds : Declarations) (d : Declaration) : Logged LoweringError Declarations :=
  match ds.get? d.name with
  | some d' => if d' = d then return ds else throw (.conflictingDeclaration d.name)
  | none => do
    Logged.write (.declaring d.name)
    return ds.insert d.name d

/-- Add declarations one after the other, up to the first that conflicts. What
was added before it stays. -/
def declareAll (ds : Declarations) :
    List Declaration → StateM Log (Except LoweringError Unit × Declarations)
  | [] => return (.ok (), ds)
  | d :: rest => do
    match ← (ds.declare d).run with
    | .ok ds' => declareAll ds' rest
    | .error e => return (.error e, ds)

/-- Add all declarations of another collection, in the order of their names, up
to the first that conflicts. -/
def merge (ds other : Declarations) : StateM Log (Except LoweringError Unit × Declarations) :=
  ds.declareAll other.values

end Declarations

end LiftedCode.Lowering
