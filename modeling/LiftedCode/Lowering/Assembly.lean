/-
Assembly of modules from lowered routines. Declarations are collected by name,
and those of routines that the module defines are dropped at the end. When a
declaration conflicts, those that were added before it stay.
-/
import LiftedCode.Lowering.Routine

namespace LiftedCode.Lowering

open Llvm (Instr Terminator)

/-- A module of lowered code. -/
abbrev LoweredModule := Llvm.Module Instr Terminator

/-- A module in the making: definitions in the order in which they were taken in, and what they
declare. -/
structure Assembly where
  definitions : List LoweredDefinition
  declarations : Declarations
deriving Inhabited

/-- A step of an assembly: whether it succeeded, and the assembly after it. -/
abbrev AssemblyStep := StateM Log (Except LoweringError Unit × Assembly)

namespace Assembly

/-- The assembly that has taken in nothing. -/
def empty : Assembly := ⟨[], ∅⟩

/-- Take in definitions, if all the declarations that come with them agree with
those already there. -/
def takeIn (m : Assembly) (definitions : List LoweredDefinition) (ds : Declarations) :
    AssemblyStep := do
  match ← m.declarations.merge ds with
  | (.ok (), merged) => return (.ok (), ⟨m.definitions ++ definitions, merged⟩)
  | (.error e, merged) => return (.error e, ⟨m.definitions, merged⟩)

/-- Take in a routine that has been lowered. -/
def addLowered (m : Assembly) (r : LoweredRoutine) : AssemblyStep :=
  m.takeIn [r.definition] r.declarations

/-- Lower a routine and take it in. -/
def add (m : Assembly) (target : Target) (r : Routine) : AssemblyStep := do
  match ← (routine target r).run with
  | .ok l => m.addLowered l
  | .error e => return (.error e, m)

/-- Take in all of another module. -/
def merge (m other : Assembly) : AssemblyStep := m.takeIn other.definitions other.declarations

/-- The finished module: definitions by name, and the declarations of what it
does not define. -/
def finish (m : Assembly) : LoweredModule :=
  let definitions := m.definitions.mergeSort fun a b => compare a.name b.name != .gt
  ⟨m.declarations.values.filter fun d => definitions.all (·.name != d.name), definitions⟩

end Assembly

end LiftedCode.Lowering
