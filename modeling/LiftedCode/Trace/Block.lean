/-
The trace of a machine block: its events in order. Every assignment becomes the
definition of a fresh local, every access to memory an event that carries the
kind of memory at the current instruction, and the end of the block hands the
registers on. Locals are numbered in one sequence that goes on from block to
block.
-/
import LiftedCode.MachineBlock
import LiftedCode.Trace.Encoding

namespace LiftedCode.Trace

open Smt (Term TermSort Command)

/-- What the trace of a block is given. -/
structure Context where
  /-- What the registers hold on entry. -/
  registers : RegisterTerms
  /-- The address of the block. -/
  start : Nat
  classifier : Classifier
deriving Inhabited

/-- What an assignment is bound to. -/
inductive Binding where
  | term (t : Term)
  /-- A value without a term. -/
  | opaqueValue
deriving DecidableEq, Inhabited

/-- The bindings of the assignments so far. -/
abbrev Bindings := Dict Ident Binding

/-- The state of a trace under way. -/
structure State where
  events : Array Event
  nextLocal : Nat
  /-- The address of the current instruction. -/
  current : Nat
  bindings : Bindings
  log : Log
deriving Inhabited

/-- A step of a trace. -/
abbrev Step (α : Type) := ExceptT TraceError (StateM State) α

-- =========================================================== basic steps

namespace Step

/-- Carry out a computation that does not touch the state. -/
def ofExcept {α : Type} (x : Except TraceError α) : Step α := ExceptT.mk (pure x)

/-- Arithmetic that may leave its range. -/
def ofFault {α : Type} (x : Except Fault α) : Step α := ofExcept (x.mapError (.code ∘ .fault))

/-- Report something. -/
def record (r : LogRecord) : Step Unit := modify fun s => { s with log := s.log.push r }

/-- Add an event. -/
def emit (e : Event) : Step Unit := modify fun s => { s with events := s.events.push e }

/-- A local name that has not been used. -/
def freshName : Step String := do
  let s ← get
  let next ← ofFault (Address.add s.nextLocal 1)
  set { s with nextLocal := next }
  return "x" ++ toString s.nextLocal

/-- A fresh local that is equal to a term. -/
def define (sort : TermSort) (body : Term) : Step Term := do
  let name ← freshName
  emit (.command (.define name [] sort body))
  return .var name

/-- A fresh local of which nothing is known but its sort. -/
def declare (sort : TermSort) : Step Term := do
  let name ← freshName
  emit (.command (.declare name [] sort))
  return .var name

/-- Record that something is not modelled exactly. -/
def warn (what : Approximation) : Step Unit := do
  record (.approximating (← get).current what)
  emit (.warning what)

/-- Bind an assignment, which must not be bound yet. -/
def bind (id : Ident) (b : Binding) : Step Unit := do
  let bound := (← get).bindings.contains id
  modify fun s => { s with bindings := s.bindings.insert id b }
  if bound then
    throw (.code (.duplicateAssignment id))

end Step

-- =============================================================== values

/-- The term for a value, under the bindings of the assignments so far. -/
def valueTerm (registers : RegisterTerms) (bindings : Bindings) : Value → Except TraceError Term
  | .bits l => .ok (.bits l.width l.magnitude)
  | .bool b => .ok (.bool b)
  | .assigned a => match bindings.get? a.id with
    | some (.term t) => .ok t
    | some .opaqueValue => .error (.opaqueValue a.id)
    | none => .error (.unboundAssignment a.id)
  | .initial r => match registers.get? r with
    | some t => .ok t
    | none => .error (.missingRegister r)
  | v@(.phi _) | v@(.returned _) | v@(.arg _ _) | v@(.entry _) => .error (.routineValue v)

section

variable (ctx : Context)

/-- The term for a value, with what the block has bound so far. -/
def term (v : Value) : Step Term := do
  Step.ofExcept (valueTerm ctx.registers (← get).bindings v)

/-- The kind of memory that the current instruction accesses. -/
def classify : Step AccessKind := do
  let addr := (← get).current
  match ctx.classifier.get? addr with
  | some k => return k
  | none => throw (.unclassified addr)

-- ========================================================== assignments

/-- The sort of an assignment's result, which must have one. -/
def resultSort (a : Assignment Value) : Step TermSort := do
  match ← Step.ofFault (checkedSortOf a.ty) with
  | some s => return s
  | none => throw (.opaqueValue a.id)

/-- Bind an assignment to a value of which nothing is known. -/
def bindUnknown (a : Assignment Value) : Step Unit := do
  match ← Step.ofFault (checkedSortOf a.ty) with
  | some s => Step.bind a.id (.term (← Step.declare s))
  | none => Step.bind a.id .opaqueValue

/-- Bind an assignment to its term if it has one, and to an unknown value with
a warning if not. -/
def bindTerm (a : Assignment Value) (what : Approximation) : Option Term → Step Unit
  | some t => do
    let s ← resultSort a
    Step.bind a.id (.term (← Step.define s t))
  | none => do
    Step.warn what
    bindUnknown a

/-- An assignment: its result is defined by a term, or a new unknown. -/
def assign (a : Assignment Value) : Step Unit := do
  Step.record (.translating a)
  match a.rhs with
  | .app app =>
    let look := valueTerm ctx.registers (← get).bindings
    bindTerm a (.operation a.id app.mnemonic) (← Step.ofExcept (appTerm look app))
  | .undefined _ => bindUnknown a
  | .read addr layout =>
    let t ← term ctx addr
    let kind ← classify ctx
    let name ← Step.freshName
    Step.emit (.read t layout name kind)
    Step.bind a.id (.term (.var name))
  | .readIf _ _ _ _ => throw (.conditionalRead a.id)
  | .machine f =>
    let look := valueTerm ctx.registers (← get).bindings
    bindTerm a (.machineFn a.id f) (← Step.ofExcept (machineFnTerm look f))

-- =========================================================== statements

/-- A statement. An instruction mark sets the address that accesses are classified by; calls,
conditional writes and most machine statements are refused. -/
def stmt : Stmt → Step Unit
  | .assign a => assign ctx a
  | .write addr layout value => do
    let t ← term ctx addr
    let u ← term ctx value
    Step.emit (.write t layout u (← classify ctx))
  | .writeIf _ _ _ _ => do throw (.conditionalWrite (← get).current)
  | .call _ => do throw (.call (← get).current)
  | .machine .emptyMmx => Step.warn .emptyMmx
  | .machine s => do throw (.machineStmt (← get).current s)
  | .comment _ => pure ()
  | .instruction offset name => do
    let addr ← Step.ofFault (Address.add ctx.start offset)
    modify fun s => { s with current := addr }
    Step.record (.instruction addr name)
    Step.emit (.instruction addr)

/-- The terms for the values of registers, register by register. -/
def registerTerms : List (Register × Value) → Step RegisterTerms
  | [] => return ∅
  | (r, v) :: rest => do
    let t ← term ctx v
    return (← registerTerms rest).insert r t

/-- Trace the end of a block. -/
def ending : BlockEnd → Step Unit
  | .fetch regs => do Step.emit (.fetch (← registerTerms ctx regs.entries))
  | .untranslated _ message => do throw (.untranslated (← get).current message)
  | .exit e _ => do throw (.machineExit (← get).current e)

/-- Trace the statements of a block and then its end. -/
def body (b : MachineBlock) : Step Unit := do
  b.stmts.forM (stmt ctx)
  ending ctx b.ending

end

-- =============================================================== blocks

/-- What the trace of a block is. -/
structure BlockTrace where
  events : List Event
  /-- The first local that the block has not used. -/
  nextLocal : Nat
  /-- The number of bytes of machine code that the block covers. -/
  size : Nat
deriving Inhabited

/-- The events of a machine block that starts at `ctx.start`, with locals
numbered from `nextLocal`. -/
def block (ctx : Context) (nextLocal : Nat) (b : MachineBlock) : Logged TraceError BlockTrace :=
  ExceptT.mk fun log =>
    let start : State := ⟨#[], nextLocal, ctx.start, ∅, log.push (.tracingBlock ctx.start)⟩
    match (body ctx b).run start with
    | (.ok (), s) => (.ok ⟨s.events.toList, s.nextLocal, b.size⟩, s.log)
    | (.error e, s) => (.error e, s.log)

/-- What one block hands on to the next: the terms that registers hold, and
the first unused local. -/
structure Handover where
  registers : RegisterTerms
  nextLocal : Nat
deriving Inhabited

/-- What remains for the next block after a block's events: the registers of
its end over those that were there. -/
def Handover.after (h : Handover) (t : BlockTrace) : Handover :=
  let final := t.events.foldl (fun regs e => match e with
    | .fetch rs => regs.insertAll rs.entries
    | _ => regs) h.registers
  ⟨final, t.nextLocal⟩

/-- The events of a block that takes over from the ones before. A block that
fails hands on what it was given. -/
def blockAfter (classifier : Classifier) (h : Handover) (start : Nat) (b : MachineBlock) :
    StateM Log (Except TraceError BlockTrace × Handover) := do
  match ← (block ⟨h.registers, start, classifier⟩ h.nextLocal b).run with
  | .ok t => return (.ok t, h.after t)
  | .error e => return (.error e, h)

end LiftedCode.Trace
