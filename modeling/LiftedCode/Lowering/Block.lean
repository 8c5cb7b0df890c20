/-
Lowering of a block of a routine. Its phi variables are bound to names that are
given a meaning once all blocks are done, since what they stand for comes from
other blocks. For the same reason the block hands out, for every register that
a phi variable of a successor asks for, the value that the register has at its
end.
-/
import LiftedCode.Lowering.Stmt
import LiftedCode.Routine

namespace LiftedCode.Lowering

open Llvm (Typed Instr Terminator)

/-- What registers hold at the end of a block, by their names: a type and an
operand, or nothing that the routine knows. -/
abbrev ExitOperands := Dict String (Option (Ty × Typed))

/-- A block that was lowered up to its phi variables. -/
structure LoweredBlock where
  label : Label
  instrs : List Instr
  terminator : Terminator
  exits : ExitOperands
deriving Inhabited

/-- What the lowering of a routine has produced, apart from blocks. -/
structure Progress where
  nextTemp : Nat
  declarations : Declarations
  log : Log
deriving Inhabited

section

variable (env : Env)

/-- Bind phi variables to their names. -/
def bindPhis : List PhiBinding → Step Unit
  | [] => return ()
  | p :: ps => do
    Step.bind p.var.id ⟨.ofTy p.var.ty, .reg (.var p.var.id)⟩
    bindPhis ps

/-- The operands for the registers at the end of a block. -/
def exitOperands (exits : Dict Register ExitValue) :
    List Register → ExitOperands → Step ExitOperands
  | [], done => return done
  | r :: rs, done => do
    if done.contains r.name then
      exitOperands exits rs done
    else
      match exits.get? r with
      | some (.value v) =>
        let x ← value env v
        exitOperands exits rs (done.insert r.name (some (v.ty, x)))
      | some (.calleeSaved _) | none => exitOperands exits rs (done.insert r.name none)

/-- The registers that the phi variables of a block's successors ask for. -/
def wantedRegisters (map : BlockMap RoutineBlock) (b : RoutineBlock) :
    Except CodeError (List Register) := do
  let successors ← b.transfer.successors.mapM map.get
  return successors.flatMap fun s => s.phis.map (·.reg)

-- ============================================================ transfers

/-- Whether a table of some targets has more of them than an index of some
bits has values. -/
def tableTooLarge (width targets : Nat) : Bool := width < 64 && valueCount width < targets

/-- Put the values that a routine returns into the structure of its results,
counted from `i` on. -/
def returnSlots (i : Nat) (results : Typed) : List (Option Value) → List Ty → Step Typed
  | some v :: vs, t :: ts => do
    Step.check (expectTy (.returnSlot i) t v.ty)
    let x ← value env v
    let results ← Step.assign results.ty (.insertValue results x i)
    returnSlots (i + 1) results vs ts
  | none :: vs, _ :: ts => returnSlots (i + 1) results vs ts
  | _, _ => return results

/-- The transfer of control at the end of a block. -/
def transfer (signature : Signature) : Transfer → Step Terminator
  | .jump l => return .jump (.block l)
  | .branch c l m => do
    Step.check (expectTy (.branchCondition env.label) .bool c.ty)
    let x ← value env c
    return .branch x (.block l) (.block m)
  | .table i ls => do
    let w ← Step.check (expectBits .tableIndex i.ty)
    if tableTooLarge w ls.length then
      throw (.tableTooLarge env.label w ls.length)
    let x ← value env i
    return .switch x .tableFailure w (ls.zipIdx.map fun e => (e.2, .block e.1))
  | .ret vs => do
    if vs.length ≠ signature.rets.length then
      throw (.returnArity env.label signature.rets.length vs.length)
    let x ← returnSlots env 0 ⟨.ofResults signature, .undef⟩ vs signature.rets
    return .ret x
  | .tailCall dest s args => do
    if s.rets ≠ signature.rets then
      throw (.tailCallReturns env.label signature.rets s.rets)
    let x ← callResults env true dest s args
    return .ret x

end

-- =============================================================== blocks

/-- Lower a block but for its phi variables. -/
def blockBody (env : Env) (signature : Signature) (map : BlockMap RoutineBlock)
    (b : RoutineBlock) : Step LoweredBlock := do
  bindPhis b.phis
  b.stmts.forM (stmt env)
  let wanted ← Step.check (wantedRegisters map b)
  let exits ← exitOperands env b.exits wanted ∅
  let terminator ← transfer env signature b.transfer
  return ⟨b.label, (← get).instrs.toList, terminator, exits⟩

/-- Lower a block but for its phi variables, on top of what the blocks before
it have produced. -/
def block (target : Target) (signature : Signature) (map : BlockMap RoutineBlock)
    (b : RoutineBlock) : ExceptT LoweringError (StateM Progress) LoweredBlock :=
  ExceptT.mk fun p =>
    let env : Env := ⟨target, b.label, signature.args⟩
    let start : State := ⟨p.nextTemp, p.declarations, ∅, #[], p.log.push (.loweringBlock b.label)⟩
    let (result, s) := (blockBody env signature map b).run start
    (result, ⟨s.nextTemp, s.declarations, s.log⟩)

end LiftedCode.Lowering
