/-
Lowering of machine operations. Most become the machine code that they came
from; string operations become block moves and fills, provided that they run
forwards.
-/
import LiftedCode.Lowering.App

namespace LiftedCode.Lowering

open Llvm (Typed Intrinsic.readTimestamp Intrinsic.shuffle128 Intrinsic.moveBytes
  Intrinsic.fillBytes)

section

variable (env : Env)

/-- The two halves that the machine leaves in two registers of 32 bits, put
together as one integer. -/
def joinHalves (pair : Typed) : Step Typed := do
  let lo ← Step.assign (.int 32) (.extractValue pair 0)
  let hi ← Step.assign (.int 32) (.extractValue pair 1)
  let lo ← Step.cast .zext lo (.int 64)
  let hi ← Step.cast .zext hi (.int 64)
  let hi ← Step.binary .shl hi (.int 64 32)
  Step.binary .or hi lo

/-- The shuffle of a 128-bit vector. -/
def shuffle128 (src index : Value) : Step Typed := do
  let t := Llvm.Ty.vector 16 (.int 8)
  let x ← Step.cast .bitcast (← value env src) t
  let i ← Step.cast .bitcast (← value env index) t
  let r ← Step.call Intrinsic.shuffle128 [x, i]
  Step.cast .bitcast r (.int 128)

/-- A machine function, with the operand for its result. -/
def machineFn : MachineFn Value → Step Typed
  | .readFsBase => Step.assign (.int 64) (.asm .readFsBase)
  | .readGsBase => Step.assign (.int 64) (.asm .readGsBase)
  | .cpuid a b => do
    let (x, y) ← operands env a b
    Step.assign (Llvm.AsmValue.cpuid x y).ty (.asm (.cpuid x y))
  | .readTimestamp => Step.call Intrinsic.readTimestamp []
  | .readControl a => do
    let x ← value env a
    joinHalves (← Step.assign (Llvm.AsmValue.readControl x).ty (.asm (.readControl x)))
  | .shuffleBytes 16 a b => shuffle128 env a b
  | .shuffleBytes n _ _ => throw (.unsupported (.shuffle n))

/-- Require a string operation to run forwards. -/
def forwards (s : MachineStmt Value) (direction : Value) : Step Unit :=
  if direction.boolLiteral? = some false then return ()
  else throw (.unsupported (.direction s))

/-- The length in bytes of `count` elements of `bytes` bytes. -/
def lengthInBytes (count : Value) (bytes : Nat) : Step Typed := do
  let n ← value env count
  if bytes = 1 then
    return n
  else
    Step.assign (.int 64) (.binary .mul n (.int bytes))

/-- A machine statement. String operations are lowered only where they go forwards. -/
def machineStmt (s : MachineStmt Value) : Step Unit :=
  match s with
  | .storeX87Control a => do
    let p ← address env a
    Step.emit (.asm (.storeX87Control p.operand))
  | .repeatMove bytes dest src count direction => do
    forwards s direction
    let d ← address env dest
    let x ← address env src
    let n ← lengthInBytes env count bytes
    Step.callVoid Intrinsic.moveBytes [d, x, n, .bool false]
  | .repeatStore 1 dest v count direction => do
    forwards s direction
    let d ← address env dest
    let x ← value env v
    let n ← lengthInBytes env count 1
    Step.callVoid Intrinsic.fillBytes [d, x, n, .bool false]
  | .repeatStore bytes _ _ _ _ => throw (.unsupported (.repeatStore bytes))
  | .emptyMmx => Step.emit (.asm .emptyMmx)

end

end LiftedCode.Lowering
