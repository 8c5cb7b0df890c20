/-
Lowering of a routine: its entry first, the other blocks by address, then the
phi variables, one value per edge. A block that other blocks lead to cannot be
an entry in the target language, so such an entry gets an empty block in front
of it, and all tables share one block for indices that they do not have.
-/
import LiftedCode.Lowering.Block

namespace LiftedCode.Lowering

open Llvm (Instr Terminator Phi Definition Operand BlockName Intrinsic.tableFailure)

/-- A definition that came from a routine. -/
abbrev LoweredDefinition := Definition Instr Terminator

/-- A routine's definition and the declarations that it needs. -/
structure LoweredRoutine where
  definition : LoweredDefinition
  declarations : Declarations
deriving Inhabited

-- ======================================================== phi variables

/-- The value that a phi variable takes on the edge from a predecessor. -/
def phiOperand (done : Dict Label LoweredBlock) (p : PhiBinding) (pred : Label) :
    Except LoweringError (Operand × BlockName) := do
  let found := do
    let b ← done.get? pred
    let exit ← b.exits.get? p.reg.name
    exit
  match found with
  | none => throw (.phiUnavailable p.var.id p.reg pred)
  | some (t, x) =>
    expectTy (.phi p.var.id) p.var.ty t
    return (x.operand, .block pred)

/-- The phi variables of a block, each with a value per edge. -/
def phis (map : BlockMap RoutineBlock) (done : Dict Label LoweredBlock) (b : RoutineBlock) :
    Except LoweringError (List Phi) := do
  if b.phis.isEmpty then
    return []
  let preds ← map.predecessors b.label
  if preds.isEmpty then
    throw (.phisWithoutPredecessors b.label)
  b.phis.mapM fun p => do
    return ⟨.var p.var.id, .ofTy p.var.ty, ← preds.mapM (phiOperand done p)⟩

-- ============================================================= routines

/-- The blocks of a routine, its entry first and the others by address. -/
def lowerOrder (map : BlockMap RoutineBlock) (entry : Label) :
    Except CodeError (List RoutineBlock) := do
  return (← map.get entry) :: map.blocks.filter (·.label != entry)

/-- The block in front of an entry that other blocks lead to. -/
def initBlock (map : BlockMap RoutineBlock) (entry : Label) :
    Except CodeError (List (Llvm.Block Instr Terminator)) := do
  if (← map.predecessors entry).isEmpty then
    return []
  else
    return [⟨.init, [], [], .jump (.block entry)⟩]

/-- Whether a block ends in a table. -/
def endsInTable (b : RoutineBlock) : Bool :=
  match b.transfer with
  | .table _ _ => true
  | _ => false

/-- The block for indices that a table does not have: it reports the failure,
unless the case may be undefined. -/
def tableFailureBlock (options : Options) : Llvm.Block Instr Terminator :=
  ⟨.tableFailure, [],
    if options.allowUndefined then [] else [.call Intrinsic.tableFailure.name []],
    .unreachable⟩

/-- The parameters of a routine's definition. -/
def params (s : Signature) : List (Llvm.Ty × Llvm.Local) :=
  s.args.zipIdx.map fun (t, i) => (.ofTy t, .arg i)

/-- A check of the routine that is lowered. -/
def ofCheck {σ α : Type} (x : Except LoweringError α) :
    ExceptT LoweringError (StateM σ) α := ExceptT.mk (pure x)

/-- Lower a routine whose blocks are known to form a graph. -/
def routineBody (target : Target) (r : Routine) (map : BlockMap RoutineBlock) :
    ExceptT LoweringError (StateM Progress) LoweredDefinition := do
  let order ← ofCheck (lowerOrder map r.entry)
  let lowered ← order.mapM (block target r.signature map)
  let done := Dict.ofList (lowered.map fun b => (b.label, b))
  let chosen ← ofCheck (order.mapM (phis map done))
  let init ← ofCheck (initBlock map r.entry)
  let hasTable := order.any endsInTable
  if hasTable && !target.options.allowUndefined then
    let p ← get
    let (result, log) := (p.declarations.declare Intrinsic.tableFailure).run p.log
    set { p with log := log }
    let ds ← ofCheck result
    modify fun p => { p with declarations := ds }
  let blocks := (lowered.zip chosen).map fun (b, ps) =>
    (⟨.block b.label, ps, b.instrs, b.terminator⟩ : Llvm.Block Instr Terminator)
  let failure := if hasTable then [tableFailureBlock target.options] else []
  return ⟨r.name, .ofResults r.signature, params r.signature, init ++ blocks ++ failure⟩

/-- Lower a routine: its definition, and the declarations that it needs. -/
def routine (target : Target) (r : Routine) : Logged LoweringError LoweredRoutine := do
  Logged.write (.loweringRoutine r.name r.addr)
  let _ ← (r.check : Except LoweringError Unit)
  let map ← (r.blockMap : Except LoweringError _)
  Logged.write (.builtBlockMap map.size)
  ExceptT.mk fun log =>
    let (result, p) := (routineBody target r map).run ⟨0, ∅, log⟩
    (result.map (⟨·, p.declarations⟩), p.log)

end LiftedCode.Lowering
