/-
Lowering of statements, calls among them. A call of a known function has to
agree with the function's own type; any other destination is an address. The
result of a call is a structure, and its leading fields are bound to variables.
-/
import LiftedCode.Lowering.Machine
import LiftedCode.Stmt

namespace LiftedCode.Lowering

open Llvm (Typed Operand)

section

variable (env : Env)

/-- An assignment: the operand for its right-hand side is bound to it. -/
def assignment (a : Assignment Value) : Step Unit := do
  let x ← match a.rhs with
    | .app op => app env op
    | .undefined t => pure ⟨.ofTy t, .undef⟩
    | .read addr layout => read env addr layout
    | .readIf layout c addr d => readIf env layout c addr d
    | .machine f => machineFn env f
  Step.bind a.id x

-- ================================================================ calls

/-- The operand to call for a destination. -/
def callee (dest : Value) (s : Signature) : Step Operand := do
  if s.variadic then
    throw (.variadicCall env.label)
  match dest with
  | .entry f =>
    if f.signature ≠ s then
      throw (.signatureMismatch f.name f.signature s)
    Step.declare (.ofFunction f.name s)
    return .global f.name
  | _ =>
    Step.check (expectTy .callDestination (.bits 64) dest.ty)
    return (← address env dest).operand

/-- The operands for the arguments of a call, counted from `i` on. -/
def arguments (i : Nat) : List Value → List Ty → Step (List Typed)
  | v :: vs, t :: ts => do
    Step.check (expectTy (.callArgument i) t v.ty)
    let x ← value env v
    return x :: (← arguments (i + 1) vs ts)
  | _, _ => return []

/-- A call, with the structure of all its results. -/
def callResults (tail : Bool) (dest : Value) (s : Signature) (args : List Value) :
    Step Typed := do
  let f ← callee env dest s
  if args.length ≠ s.args.length then
    throw (.argumentOutOfRange args.length s.args.length)
  let xs ← arguments env 0 args s.args
  Step.assign (.ofResults s) (.call tail (.ofResults s) f xs)

/-- Bind variables to the fields of a structure, counted from `i` on. -/
def bindResults (results : Typed) (i : Nat) : List Variable → List Ty → Step Unit
  | v :: vs, t :: ts => do
    Step.check (expectTy (.returnedValue v.id) t v.ty)
    let x ← Step.assign (.ofTy t) (.extractValue results i)
    Step.bind v.id x
    bindResults results (i + 1) vs ts
  | _, _ => return ()

/-- A call whose results are bound to variables. -/
def call (c : Call) : Step Unit := do
  let r ← callResults env false c.dest c.signature c.args
  if c.signature.rets.length < c.returns.length then
    throw (.returnArity env.label c.signature.rets.length c.returns.length)
  bindResults r 0 c.returns c.signature.rets

-- =========================================================== statements

/-- A statement. Remarks and instruction marks leave comments where those are
wanted. -/
def stmt : Stmt → Step Unit
  | .assign a => assignment env a
  | .write addr layout v => write env addr layout v
  | .writeIf c addr layout v => writeIf env c addr layout v
  | .call c => call env c
  | .machine s => machineStmt env s
  | .comment text => do
    if env.target.options.comments then
      Step.emit (.comment text)
  | .instruction offset name => do
    if env.target.options.comments then
      let addr ← Step.ofFault (Address.add env.label offset)
      Step.emit (.comment (Numeral.hex addr ++ ": " ++ name))

end

end LiftedCode.Lowering
