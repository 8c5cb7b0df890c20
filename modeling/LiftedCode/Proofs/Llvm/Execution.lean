/-
Execution of definitions in the target language, block by block. On the way
into a block its phi variables take the values for the edge, all of them read
before any is bound. A block then executes its instructions, and its terminator
selects where control goes. A condition or an index that is poison has no
successor.

A block may also end in a call that does not come back: then there is nothing
in it but the call.
-/
import LiftedCode.Proofs.Llvm.Eval

namespace LiftedCode.Llvm

/-- The definition of a function in lowered code. -/
abbrev Code := Definition Instr Terminator

/-- How far the execution of a definition has come. -/
inductive Config where
  /-- At the start of a block, with its phi variables bound. -/
  | at (block : BlockName) (locals : Frame)
  | returned (result : Data)
  /-- In a function that does not return. -/
  | calling (callee : String)

/-- The function that a block calls without coming back. -/
def stops? (b : Block Instr Terminator) : Option String :=
  match b.instrs, b.terminator with
  | [.call f []], .unreachable => some f
  | _, _ => none

/-- The target that a table has for an index, or the default. -/
def switchTarget {w : Nat} (i : BitVec w) (default : BlockName) (targets : List (Nat × BlockName)) :
    BlockName :=
  match targets.find? fun e => BitVec.ofNat w e.1 == i with
  | some e => e.2
  | none => default

section

variable (link : Linkage)

/-- Bind phi variables on top of `ρ'`, on the edge from a block that is left
with the locals `ρ`. -/
def bindPhis (pred : BlockName) (ρ ρ' : Frame) : List Phi → Option Frame
  | [] => some ρ'
  | p :: ps => do
    let e ← p.incoming.find? fun e => e.2 = pred
    bindPhis pred ρ (ρ'.set p.name (← Typed.eval link ρ ⟨p.ty, e.1⟩)) ps

namespace Code

variable (code : Code)

/-- The block with a name. -/
def block? (l : BlockName) : Option (Block Instr Terminator) :=
  code.blocks.find? fun b => b.label = l

/-- Enter a block from another: its phi variables are bound, all at once. -/
def enter (pred : BlockName) (ρ : Frame) (l : BlockName) : Option Config := do
  let b ← code.block? l
  return .at l (← bindPhis link pred ρ ρ b.phis)

/-- Go where the terminator of a block leads. -/
def leave (b : Block Instr Terminator) (ρ : Frame) : Option Config :=
  match b.terminator with
  | .jump l => code.enter link b.label ρ l
  | .branch c l m => match c.eval link ρ with
    | some (.bits 1 x) => code.enter link b.label ρ (if x = 1#1 then l else m)
    | _ => none
  | .switch i default w targets => match i.eval link ρ with
    | some (.bits v x) =>
      if v = w then code.enter link b.label ρ (switchTarget x default targets) else none
    | _ => none
  | .ret x => (x.eval link ρ).map .returned
  | .unreachable => none

/-- Execute a block. Where nothing is executed any more, nothing changes. -/
def step : Config → Option Config
  | .at l ρ => do
    let b ← code.block? l
    match stops? b with
    | some f => return .calling f
    | none => code.leave link b (← Llvm.run link ρ b.instrs)
  | .returned x => some (.returned x)
  | .calling f => some (.calling f)

/-- The locals for the arguments of a call. -/
def frame (args : List Data) : Frame :=
  fun x => ((code.params.zip args).find? fun e => e.1.2 = x).map (·.2)

/-- Execute some number of blocks, from the first one. -/
def execute (args : List Data) : Nat → Option Config
  | 0 => code.blocks.head?.map fun b => .at b.label (code.frame args)
  | n + 1 => do code.step link (← execute args n)

variable {link code}

/-- A block that goes on is executed, and then it is left. -/
theorem step_at {l : BlockName} {ρ : Frame} {b : Block Instr Terminator}
    (hb : code.block? l = some b) (hs : stops? b = none) :
    code.step link (.at l ρ) = (Llvm.run link ρ b.instrs).bind (code.leave link b) := by
  unfold step
  simp only [hb, Option.bind_eq_bind, Option.bind_some, hs]

end Code

end

end LiftedCode.Llvm
