/-
Execution of machine blocks: what the statements of a block do, one by one, to
the data that identifiers stand for and to memory. Memory itself is left open:
what a read finds, what an undefined value is and what the machine answers is
chosen beforehand for every identifier, and execution records the accesses in
order.
-/
import LiftedCode.MachineBlock
import LiftedCode.Proofs.Meaning.Operation

namespace LiftedCode

/-- The literal for what a register of 64 bits can hold. -/
def Literal.word (x : BitVec 64) : Literal :=
  ⟨64, x.toNat, by decide, x.isLt, Nat.lt_trans x.isLt (by decide)⟩

/-- An access to memory: where, in which layout, and what is read or written. -/
inductive Access where
  | read (addr : Datum) (layout : Layout) (value : Datum)
  | write (addr : Datum) (layout : Layout) (value : Datum)

/-- The data of registers. -/
abbrev RegisterData := Register → Option Datum

/-- What the environment of a block chooses, for every identifier: what memory
holds, what an undefined value is, what the machine answers. -/
abbrev Choice := Ident → Datum

/-- How far execution has come. -/
structure Run where
  /-- What the identifiers stand for that have been assigned. -/
  store : Ident → Option Datum
  accesses : List Access

namespace Run

/-- Nothing has been assigned and no memory accessed. -/
def start : Run := ⟨fun _ => none, []⟩

/-- Let an identifier stand for a datum. -/
def bind (s : Run) (id : Ident) (d : Datum) : Run :=
  { s with store := fun i => if i = id then some d else s.store i }

/-- The run with one more access. -/
def record (s : Run) (a : Access) : Run := { s with accesses := s.accesses ++ [a] }

/-- An identifier stands for what was last bound to it. -/
@[simp] theorem store_bind (s : Run) (id i : Ident) (d : Datum) :
    (s.bind id d).store i = if i = id then some d else s.store i := rfl

end Run

section

variable (regs : RegisterData) (choice : Choice)

/-- The datum of a value, where machine code can name it. -/
def Value.eval (store : Ident → Option Datum) : Value → Except Stop Datum
  | .bits l => .ok (.bits l.width (BitVec.ofNat l.width l.magnitude))
  | .bool b => .ok (.bool b)
  | .assigned a => match store a.id with
    | some d => .ok d
    | none => .error .shape
  | .initial r => match regs r with
    | some d => .ok d
    | none => .error .shape
  | .phi _ | .returned _ | .arg _ _ | .entry _ => .error .shape

/-- Execute an assignment. What is read from memory, and what is undefined, is chosen. -/
def Run.assign (s : Run) (a : Assignment Value) : Except Stop Run := do
  let value := Value.eval regs s.store
  match a.rhs with
  | .app f => return s.bind a.id (← f.eval value)
  | .undefined _ => return s.bind a.id (choice a.id)
  | .read addr l => return (s.record (.read (← value addr) l (choice a.id))).bind a.id (choice a.id)
  | .readIf l c addr d =>
    if ← (← value c).toBool then
      return (s.record (.read (← value addr) l (choice a.id))).bind a.id (choice a.id)
    else return s.bind a.id (← value d)
  | .machine (.shuffleBytes 16 src index) => do
    let x ← (← value src).toBits 128
    let y ← (← value index).toBits 128
    return s.bind a.id (.bits 128 (Bits.shuffle128 x y))
  | .machine _ => return s.bind a.id (choice a.id)

/-- Execute a statement. Calls and machine statements are not interpreted. -/
def Run.stmt (s : Run) : Stmt → Except Stop Run
  | .assign a => s.assign regs choice a
  | .write addr l v => do
    return s.record (.write (← addr.eval regs s.store) l (← v.eval regs s.store))
  | .writeIf c addr l v => do
    if ← (← c.eval regs s.store).toBool then
      return s.record (.write (← addr.eval regs s.store) l (← v.eval regs s.store))
    else return s
  | .call _ | .machine _ => .error .shape
  | .comment _ | .instruction _ _ => .ok s

/-- Execute statements, one after the other. -/
def Run.stmts (s : Run) : List Stmt → Except Stop Run
  | [] => .ok s
  | c :: rest => do Run.stmts (← s.stmt regs choice c) rest

end

end LiftedCode
