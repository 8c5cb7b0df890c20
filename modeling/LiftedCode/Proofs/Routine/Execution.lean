/-
Execution of routines, block by block. A store holds what identifiers stand
for. A block executes its statements in order, and its transfer selects where
control goes. On the way to a successor every phi variable there takes the
value that its register has at the end of the block that is left, all of them
read from one store.

Only assignments of operations are interpreted among the statements that do
anything. A routine that calls another one at its end leaves for the address of
the callee with the data of the arguments, and what comes of that is not part of
its own execution.
-/
import LiftedCode.Proofs.Meaning.Operation
import LiftedCode.Routine

namespace LiftedCode

/-- What identifiers stand for. -/
abbrev Store := Ident → Option Datum

namespace Store

/-- Nothing stands for anything. -/
def empty : Store := fun _ => none

/-- Let an identifier stand for a datum. -/
def set (σ : Store) (id : Ident) (d : Datum) : Store := fun i => if i = id then some d else σ i

@[simp] theorem set_self (σ : Store) (id : Ident) (d : Datum) : σ.set id d id = some d := by
  rw [set, if_pos rfl]

theorem set_of_ne {σ : Store} {id i : Ident} {d : Datum} (h : i ≠ id) : σ.set id d i = σ i := by
  rw [set, if_neg h]

end Store

/-- What a routine is run on: the data of its arguments, and the addresses of
the functions that it knows. -/
structure Inputs where
  args : List Datum
  address : String → BitVec 64

namespace Inputs

variable (input : Inputs)

/-- The datum of a value. -/
def value (σ : Store) : Value → Except Stop Datum
  | .bits l => .ok (.bits l.width (BitVec.ofNat l.width l.magnitude))
  | .bool b => .ok (.bool b)
  | .assigned a => match σ a.id with
    | some d => .ok d
    | none => .error .shape
  | .phi v | .returned v => match σ v.id with
    | some d => .ok d
    | none => .error .shape
  | .initial _ => .error .shape
  | .arg i _ => match input.args[i]? with
    | some d => .ok d
    | none => .error .shape
  | .entry f => .ok (.bits 64 (input.address f.name))

/-- Execute a statement that neither touches memory nor calls. -/
def stmt (σ : Store) : Stmt → Except Stop Store
  | .assign a => match a.rhs with
    | .app f => do return σ.set a.id (← f.eval (input.value σ))
    | _ => .error .shape
  | .comment _ | .instruction _ _ => .ok σ
  | .write _ _ _ | .writeIf _ _ _ _ | .call _ | .machine _ => .error .shape

/-- Execute statements, one after the other. -/
def stmts (σ : Store) : List Stmt → Except Stop Store
  | [] => .ok σ
  | c :: rest => do stmts (← input.stmt σ c) rest

/-- The datum that a phi variable takes from a block that ends with a store. -/
def phi (b : RoutineBlock) (σ : Store) (p : PhiBinding) : Except Stop Datum :=
  match b.exits.get? p.reg with
  | some (.value v) => input.value σ v
  | some (.calleeSaved _) | none => .error .shape

/-- Bind phi variables on top of `σ'`, as the block `b` with the store `σ` is
left. -/
def phis (b : RoutineBlock) (σ σ' : Store) : List PhiBinding → Except Stop Store
  | [] => .ok σ'
  | p :: ps => do phis b σ (σ'.set p.var.id (← input.phi b σ p)) ps

/-- The data of returned values, of which some are left open. -/
def slots (σ : Store) : List (Option Value) → Except Stop (List (Option Datum))
  | [] => .ok []
  | none :: vs => do return none :: (← slots σ vs)
  | some v :: vs => do return some (← input.value σ v) :: (← slots σ vs)

/-- The data of values. -/
def values (σ : Store) : List Value → Except Stop (List Datum)
  | [] => .ok []
  | v :: vs => do return (← input.value σ v) :: (← values σ vs)

end Inputs

namespace Routine

/-- How far the execution of a routine has come. -/
inductive Config where
  /-- At the start of a block, with its phi variables bound. -/
  | running (label : Label) (store : Store)
  | returned (slots : List (Option Datum))
  /-- Gone on in another function. -/
  | left (callee : BitVec 64) (args : List Datum)
  /-- At an index that a table does not have. -/
  | outside
  /-- The failure of the table was reported. -/
  | failed

section

variable (r : Routine) (input : Inputs)

/-- Enter a block from another: its phi variables are bound, all at once. -/
def enter (b : RoutineBlock) (σ : Store) (l : Label) : Except Stop Config :=
  match r.block? l with
  | .ok c => do return .running l (← input.phis b σ σ c.phis)
  | .error _ => .error .shape

/-- Go where the transfer of a block leads. -/
def leave (b : RoutineBlock) (σ : Store) : Except Stop Config :=
  match b.transfer with
  | .jump l => r.enter input b σ l
  | .branch c l m => do
    if ← (← input.value σ c).toBool then r.enter input b σ l else r.enter input b σ m
  | .table i ls => do
    match ← input.value σ i with
    | .bits _ x => match ls[x.toNat]? with
      | some l => r.enter input b σ l
      | none => return .outside
    | _ => throw .shape
  | .ret vs => do return .returned (← input.slots σ vs)
  | .tailCall dest _ args => do
    return .left (← (← input.value σ dest).toBits 64) (← input.values σ args)

/-- Execute a block. Where nothing is executed any more, nothing changes. -/
def step : Config → Except Stop Config
  | .running l σ => match r.block? l with
    | .ok b => do r.leave input b (← input.stmts σ b.stmts)
    | .error _ => .error .shape
  | .outside | .failed => .ok .failed
  | .returned slots => .ok (.returned slots)
  | .left callee args => .ok (.left callee args)

/-- Execute some number of blocks from the start. -/
def run : Nat → Except Stop Config
  | 0 => .ok (.running r.entry .empty)
  | n + 1 => do r.step input (← run n)

end

end Routine

end LiftedCode
