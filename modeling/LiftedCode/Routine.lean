/-
Routines: functions recovered from machine code, as graphs of blocks. A block
may begin with phi variables, each of which takes over a register's value from
the predecessor, and ends in a transfer of control that names its successors.
A routine is well formed if its labels and the identifiers that it binds are
unique, its entry exists and has no phi variables, and every successor exists.
-/
import LiftedCode.Flow.BlockMap
import LiftedCode.Stmt

namespace LiftedCode

/-- The value of a register at the end of a block. -/
inductive ExitValue where
  /-- The register still holds what it held on entry to the routine. -/
  | calleeSaved (reg : Register)
  | value (value : Value)
deriving Inhabited

/-- A variable bound to the value of a register on exit from the predecessor. -/
structure PhiBinding where
  var : Variable
  reg : Register
deriving DecidableEq, Inhabited

/-- How control leaves a block of a routine. -/
inductive Transfer where
  | jump (label : Label)
  | branch (cond : Value) (yes no : Label)
  /-- Go on at the target with the given index. -/
  | table (index : Value) (targets : List Label)
  /-- Return, with some of the return values left open. -/
  | ret (values : List (Option Value))
  /-- Call a function and return what it returns. -/
  | tailCall (dest : Value) (signature : Signature) (args : List Value)
deriving Inhabited

namespace Transfer

/-- Where control may go on, in order, once per edge. -/
def successors : Transfer → List Label
  | jump l => [l]
  | branch _ l m => [l, m]
  | table _ ls => ls
  | ret _ | tailCall _ _ _ => []

/-- The values that the transfer reads, in order. -/
def operands : Transfer → List Value
  | jump _ => []
  | branch c _ _ => [c]
  | table i _ => [i]
  | ret vs => vs.filterMap id
  | tailCall d _ vs => d :: vs

/-- The written form of a transfer. -/
def text (style : ValueStyle) : Transfer → String
  | jump l => "jump " ++ labelText l
  | branch c l m => blankSeparated ["branch", c.text style, labelText l, labelText m]
  | table i ls =>
    "lookup " ++ i.text style ++ " [" ++ commaSeparated (ls.map labelText) ++ "]"
  | ret vs =>
    "ret (" ++ commaSeparated (vs.map fun
      | some v => v.text style
      | none => "_") ++ ")"
  | tailCall d _ vs =>
    "tail_call " ++ d.text style ++ "(" ++ commaSeparated (vs.map (Value.text style)) ++ ")"

end Transfer

/-- A block of a routine: what it binds on entry, what it does, and where it goes on. -/
structure RoutineBlock where
  label : Label
  /-- The number of bytes of machine code that the block covers. -/
  size : Nat
  phis : List PhiBinding
  stmts : List Stmt
  transfer : Transfer
  /-- What the registers hold at the end, for the phi variables of successors. -/
  exits : Dict Register ExitValue
deriving Inhabited

namespace RoutineBlock

instance : FlowNode RoutineBlock where
  label := label
  size := size
  successors b := b.transfer.successors

/-- The identifiers that the block binds, in order. -/
def binds (b : RoutineBlock) : List Ident :=
  b.phis.map (·.var.id) ++ b.stmts.flatMap Stmt.binds

/-- The lines of the written form. -/
def lines (style : ValueStyle) (b : RoutineBlock) : List String :=
  ["  " ++ labelText b.label ++ ":"]
    ++ b.phis.map (fun p => "    " ++ identText p.var.id ++ " := phi %" ++ p.reg.name)
    ++ b.stmts.map (fun s => "    " ++ s.text style)
    ++ ["    " ++ b.transfer.text style]

end RoutineBlock

/-- A function recovered from machine code. -/
structure Routine where
  name : String
  addr : Nat
  signature : Signature
  entry : Label
  blocks : List RoutineBlock
deriving Inhabited

namespace Routine

/-- The block with a label. -/
def block? (r : Routine) (l : Label) : Except CodeError RoutineBlock :=
  match r.blocks.find? (·.label == l) with
  | some b => .ok b
  | none => .error (.blockNotFound l)

/-- Require identifiers to be new, and take them in. -/
def define (seen : List Ident) : List Ident → Except CodeError (List Ident)
  | [] => .ok seen
  | id :: ids => if id ∈ seen then .error (.duplicateAssignment id) else define (id :: seen) ids

/-- Require the identifiers that the blocks bind to be new and their successors
to exist, block by block. -/
def checkBlocks (labels : List Label) (seen : List Ident) :
    List RoutineBlock → Except CodeError Unit
  | [] => .ok ()
  | b :: bs => do
    let seen ← define seen b.binds
    match b.transfer.successors.find? (· ∉ labels) with
    | some l => throw (.blockNotFound l)
    | none => checkBlocks labels seen bs

/-- The first label that has occurred before. -/
def firstRepeated (seen : List Label) : List Label → Option Label
  | [] => none
  | l :: ls => if l ∈ seen then some l else firstRepeated (l :: seen) ls

/-- Require the routine to be well formed. -/
def check (r : Routine) : Except CodeError Unit := do
  let labels := r.blocks.map (·.label)
  match firstRepeated [] labels with
  | some l => throw (.duplicateBlock l)
  | none => pure ()
  let entry ← r.block? r.entry
  if !entry.phis.isEmpty then
    throw (.phiInEntryBlock r.entry)
  checkBlocks labels [] r.blocks

/-- The graph of the routine's blocks. -/
def blockMap (r : Routine) : Except CodeError (BlockMap RoutineBlock) := BlockMap.build r.blocks

/-- The written form: a heading, then each block with its label. -/
def text (style : ValueStyle) (r : Routine) : String :=
  String.join ((
    ["function " ++ r.name ++ " @ " ++ Numeral.hex r.addr ++ " : " ++ r.signature.text]
      ++ r.blocks.flatMap (RoutineBlock.lines style)).map (· ++ "\n"))

/-- The written form, its widths computed in 32 bits. -/
def checkedText (style : ValueStyle) (r : Routine) : Except Fault String :=
  inRange (r.blocks.all fun b => b.stmts.all Stmt.textFits) (r.text style)

end Routine

end LiftedCode
