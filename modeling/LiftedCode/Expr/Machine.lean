/-
Machine operations: what x86-64 instructions do beyond pure operations, memory
and registers. Functions produce a value, statements have an effect, and exits
leave the recovered code. All are over any type `ν` of operands.
-/
import LiftedCode.Ty

namespace LiftedCode

/-- A machine operation that produces a value. -/
inductive MachineFn (ν : Type) where
  | readFsBase
  | readGsBase
  /-- Processor identification, as the tuple of `eax`, `ebx`, `ecx` and `edx`. -/
  | cpuid (leaf subleaf : ν)
  /-- The time stamp counter. -/
  | readTimestamp
  /-- An extended control register, as `edx:eax`. -/
  | readControl (index : ν)
  /-- A shuffle of the bytes of a vector of `bytes` bytes. -/
  | shuffleBytes (bytes : Nat) (src index : ν)
deriving DecidableEq, Inhabited

namespace MachineFn

variable {ν : Type}

/-- The values that the function reads, in order. -/
def operands : MachineFn ν → List ν
  | readFsBase | readGsBase | readTimestamp => []
  | cpuid a b => [a, b]
  | readControl a => [a]
  | shuffleBytes _ a b => [a, b]

/-- The type of the result; a shuffle may be too wide for one. -/
def ty : MachineFn ν → Except Fault Ty
  | readFsBase | readGsBase | readTimestamp | readControl _ => .ok (.bits 64)
  | cpuid _ _ => .ok (.tuple (List.replicate 4 (.bits 32)))
  | shuffleBytes n _ _ => (Width.mul 8 n).map .bits

/-- The written form, from those of the operands. -/
def text (operand : ν → String) : MachineFn ν → String
  | readFsBase => "read_fs_base"
  | readGsBase => "read_gs_base"
  | cpuid a b => "cpuid " ++ blankSeparated [operand a, operand b]
  | readTimestamp => "rdtsc"
  | readControl a => "xgetbv " ++ operand a
  | shuffleBytes n a b =>
    "pshufb<" ++ toString n ++ "> " ++ blankSeparated [operand a, operand b]

/-- The same function of other operands. -/
def map {μ : Type} (g : ν → μ) : MachineFn ν → MachineFn μ
  | readFsBase => readFsBase
  | readGsBase => readGsBase
  | cpuid a b => cpuid (g a) (g b)
  | readTimestamp => readTimestamp
  | readControl a => readControl (g a)
  | shuffleBytes n a b => shuffleBytes n (g a) (g b)

/-- The function with nothing in the place of its operands. -/
def shape (f : MachineFn ν) : MachineFn Unit := f.map fun _ => ()

/-- A function is given by its shape and its operands. -/
theorem eq_iff_shape {f g : MachineFn ν} :
    f = g ↔ f.shape = g.shape ∧ f.operands = g.operands := by
  refine ⟨fun h => h ▸ ⟨rfl, rfl⟩, fun ⟨hs, ho⟩ => ?_⟩
  cases f <;> cases g <;> simp_all [shape, map, operands]

/-- An operand is smaller than the function that reads it. -/
theorem sizeOf_lt_of_mem_operands [SizeOf ν] {f : MachineFn ν} {v : ν} (h : v ∈ f.operands) :
    sizeOf v < sizeOf f := by
  cases f <;> simp [operands] at h <;> simp <;> grind

end MachineFn

/-- A machine operation with an effect beyond memory and registers. -/
inductive MachineStmt (ν : Type) where
  /-- Store the x87 control word at an address. -/
  | storeX87Control (addr : ν)
  /-- Copy `count` elements of `bytes` bytes each, in the direction of a flag. -/
  | repeatMove (bytes : Nat) (dest src count direction : ν)
  /-- Store `count` copies of an element of `bytes` bytes. -/
  | repeatStore (bytes : Nat) (dest value count direction : ν)
  /-- Leave the vector mode of the x87 registers. -/
  | emptyMmx
deriving DecidableEq, Inhabited

namespace MachineStmt

variable {ν : Type}

/-- The values that the statement reads, in order. -/
def operands : MachineStmt ν → List ν
  | storeX87Control a => [a]
  | repeatMove _ a b c d => [a, b, c, d]
  | repeatStore _ a b c d => [a, b, c, d]
  | emptyMmx => []

/-- The statement with nothing in the place of its operands. -/
def shape : MachineStmt ν → MachineStmt Unit
  | storeX87Control _ => storeX87Control ()
  | repeatMove n _ _ _ _ => repeatMove n () () () ()
  | repeatStore n _ _ _ _ => repeatStore n () () () ()
  | emptyMmx => emptyMmx

/-- A statement is given by its shape and its operands. -/
theorem eq_iff_shape {s t : MachineStmt ν} :
    s = t ↔ s.shape = t.shape ∧ s.operands = t.operands := by
  refine ⟨fun h => h ▸ ⟨rfl, rfl⟩, fun ⟨hs, ho⟩ => ?_⟩
  cases s <;> cases t <;> simp_all [shape, operands]

/-- The written form, from those of the operands. -/
def text (operand : ν → String) : MachineStmt ν → String
  | storeX87Control a => "fnstcw " ++ operand a
  | repeatMove n a b c d =>
    "rep_movs<" ++ toString n ++ "> " ++ blankSeparated ([a, b, c, d].map operand)
  | repeatStore n a b c d =>
    "rep_stos<" ++ toString n ++ "> " ++ blankSeparated ([a, b, c, d].map operand)
  | emptyMmx => "emms"

end MachineStmt

/-- A machine operation that leaves the recovered code. -/
inductive MachineExit where
  | halt
  | undefinedInstruction
  | systemCall
deriving DecidableEq, Repr, Inhabited

/-- All exits of the machine. -/
def MachineExit.all : List MachineExit := [halt, undefinedInstruction, systemCall]

/-- The name of an exit. -/
def MachineExit.text : MachineExit → String
  | halt => "hlt"
  | undefinedInstruction => "ud2"
  | systemCall => "syscall"

end LiftedCode
