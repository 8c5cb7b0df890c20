/-
What of a block is confined to the reach of the values that it reads: machine
operations, the operands that assignments and calls bind identifiers to, and transfers
of control. Only the binding itself is left, so that phi variables and statements are
put together from what is confined and from bindings of the identifiers that they are
said to bind (`Composed`, `composed_stmts`).
-/
import LiftedCode.Proofs.Lowering.Block
import LiftedCode.Proofs.Lowering.Confined.Step
import LiftedCode.Proofs.Lowering.Types.Stmt

namespace LiftedCode.Lowering

open Llvm (Typed Operand Declaration)

variable {R : Reach} {env : Env}

-- ===================================================== machine operations

section

variable (env) (a b c : Value) [R.Has a] [R.Has b] [R.Has c]

instance (x : Typed) : Confined R (joinHalves x) := by
  unfold joinHalves
  infer_instance

instance : Confined R (shuffle128 env a b) := by
  unfold shuffle128
  infer_instance

instance (m : MachineStmt Value) (direction : Value) : Confined R (forwards m direction) := by
  unfold forwards
  infer_instance

instance (n : Nat) : Confined R (lengthInBytes env a n) := by
  unfold lengthInBytes
  infer_instance

end

/-- A machine function stays within the reach of its operands. -/
theorem confined_machineFn (f : MachineFn Value) (hf : ∀ v ∈ f.operands, R.Has v) :
    Confined R (machineFn env f) := by
  cases f with
  | readFsBase | readGsBase | readTimestamp =>
      unfold machineFn
      infer_instance
  | readControl a =>
      have := hf a List.mem_cons_self
      unfold machineFn
      infer_instance
  | cpuid a b =>
      obtain ⟨_, _⟩ := has_pair hf
      unfold machineFn
      infer_instance
  | shuffleBytes n a b =>
      obtain ⟨_, _⟩ := has_pair hf
      by_cases hn : n = 16
      · subst hn
        exact inferInstanceAs (Confined R (shuffle128 env a b))
      · unfold machineFn
        split
        case h_6 heq => exact absurd (MachineFn.shuffleBytes.inj heq).1 hn
        case h_7 => infer_instance
        all_goals contradiction

theorem confined_machineStmt (m : MachineStmt Value) (hm : ∀ v ∈ m.operands, R.Has v) :
    Confined R (machineStmt env m) := by
  cases m with
  | storeX87Control a =>
      have := hm a List.mem_cons_self
      unfold machineStmt
      infer_instance
  | repeatMove n d x k dir =>
      obtain ⟨_, _, _, _, -⟩ := by
        simpa only [MachineStmt.operands, List.forall_mem_cons] using hm
      unfold machineStmt
      infer_instance
  | repeatStore n d x k dir =>
      obtain ⟨_, _, _, _, -⟩ := by
        simpa only [MachineStmt.operands, List.forall_mem_cons] using hm
      by_cases hn : n = 1
      · subst hn
        exact inferInstanceAs (Confined R (do
          forwards (.repeatStore 1 d x k dir) dir
          let d ← address env d
          let x ← value env x
          let n ← lengthInBytes env k 1
          Step.callVoid Llvm.Intrinsic.fillBytes [d, x, n, .bool false]))
      · unfold machineStmt
        split
        case h_3 heq => exact absurd (MachineStmt.repeatStore.inj heq).1 hn
        case h_4 => infer_instance
        all_goals contradiction
  | emptyMmx =>
      unfold machineStmt
      infer_instance

-- ============================================================= assignments

/-- A right-hand side stays within the reach of its operands. -/
theorem confined_operandOf (rhs : Rhs Value) (h : ∀ v ∈ rhs.operands, R.Has v) :
    Confined R (operandOf env rhs) := by
  cases rhs with
  | app f => exact confined_app env f h
  | undefined t => exact .pure _
  | read a l =>
      have := h a List.mem_cons_self
      exact inferInstanceAs (Confined R (read env a l))
  | readIf l c a d =>
      obtain ⟨_, _, _, -⟩ := by simpa only [Rhs.operands, List.forall_mem_cons] using h
      exact inferInstanceAs (Confined R (readIf env l c a d))
  | machine f => exact confined_machineFn f h

instance (results : Typed) (i : Nat) (v : Variable) (t : Ty) :
    Confined R (resultOf results i v t) := by
  unfold resultOf
  infer_instance

-- =================================================================== calls

/-- A function is asked for with the type that it has. -/
instance (dest : Value) (sig : Signature) [hd : R.Has dest] : Confined R (callee env dest sig) := by
  unfold callee
  cases dest with
  | entry f =>
      by_cases hf : f.signature = sig
      · have : Confined R (Step.declare (.ofFunction f.name sig)) :=
          .declare (.inr ⟨f, hd.function f rfl, hf ▸ rfl⟩)
        infer_instance
      · simp only [ne_eq, hf, not_false_eq_true, if_true]
        infer_instance
  | bits | bool | assigned | initial | phi | returned | arg => infer_instance

theorem confined_arguments (i : Nat) {vs : List Value} (ts : List Ty) (hvs : ∀ v ∈ vs, R.Has v) :
    Confined R (arguments env i vs ts) := by
  induction vs generalizing i ts with
  | nil => cases ts <;> exact .pure _
  | cons v vs ih =>
      obtain ⟨_, hvs⟩ := List.forall_mem_cons.1 hvs
      cases ts with
      | nil => exact .pure _
      | cons t ts =>
          have := ih (i + 1) ts hvs
          unfold arguments
          infer_instance

/-- A call stays within the reach of its destination and its arguments. -/
theorem confined_callResults (isTail : Bool) (sig : Signature) {dest : Value} {vs : List Value}
    (h : ∀ v ∈ dest :: vs, R.Has v) : Confined R (callResults env isTail dest sig vs) := by
  obtain ⟨_, hvs⟩ := List.forall_mem_cons.1 h
  have : Confined R (arguments env 0 vs sig.args) := confined_arguments 0 sig.args hvs
  unfold callResults
  infer_instance

-- ============================================================= statements

/-- The step is put together from confined ones and from bindings of the identifiers,
one after the other, of which some may be left out. -/
inductive Composed (R : Reach) : {α : Type} → List Ident → Step α → Prop where
  | confined {α : Type} {m : Step α} (h : Confined R m) : Composed R [] m
  | bindIdent (id : Ident) (x : Typed) : Composed R [id] (Step.bind id x)
  | bind {α β : Type} {ids ids' : List Ident} {x : Step α} {f : α → Step β}
    (hx : Composed R ids x) (hf : ∀ a, Composed R ids' (f a)) : Composed R (ids ++ ids') (x >>= f)
  | fewer {α : Type} {ids ids' : List Ident} {m : Step α} (h : Composed R ids m)
    (hsub : ids.Sublist ids') : Composed R ids' m

theorem composed_bindPhis (ps : List PhiBinding) :
    Composed R (ps.map (·.var.id)) (bindPhis ps) := by
  induction ps with
  | nil => exact .confined (.pure ())
  | cons p ps ih => exact (Composed.bindIdent _ _).bind fun _ => ih

theorem composed_bindResults (r : Typed) (i : Nat) (vs : List Variable) (ts : List Ty) :
    Composed R (vs.map (·.id)) (bindResults r i vs ts) := by
  have hnone : ∀ vs : List Variable, Composed R (vs.map (·.id)) (pure ()) := fun vs =>
    (Composed.confined (.pure ())).fewer (List.nil_sublist _)
  induction vs generalizing i ts with
  | nil => cases ts <;> exact hnone []
  | cons v vs ih =>
      cases ts with
      | nil => exact hnone (v :: vs)
      | cons t ts =>
          have hresult : Confined R (resultOf r i v t) := inferInstance
          rw [bindResults_cons]
          exact ((Composed.confined hresult).bind fun _ => .bindIdent v.id _).bind fun _ =>
            ih (i + 1) ts

theorem composed_call (k : Call) (hk : ∀ v ∈ k.dest :: k.args, R.Has v) :
    Composed R (k.returns.map (·.id)) (call env k) := by
  refine (Composed.confined (confined_callResults false k.signature hk)).bind fun r => ?_
  split
  · exact (Composed.confined inferInstance).fewer (List.nil_sublist _)
  · exact composed_bindResults r 0 k.returns k.signature.rets

/-- A statement is put together from steps within the reach of its operands and the bindings
that it makes. -/
theorem composed_stmt (st : Stmt) (hcomments : IsRemark st → R.comments)
    (hst : ∀ v ∈ st.operands, R.Has v) : Composed R st.binds (stmt env st) := by
  cases st with
  | assign a =>
      rw [stmt, assignment_eq]
      exact (Composed.confined (confined_operandOf a.rhs hst)).bind fun _ => .bindIdent a.id _
  | write a l v =>
      obtain ⟨_, _⟩ := has_pair hst
      have hwrite : Confined R (write env a l v) := inferInstance
      exact .confined hwrite
  | writeIf c a l v =>
      obtain ⟨_, _, _, -⟩ := by simpa only [Stmt.operands, List.forall_mem_cons] using hst
      have hwrite : Confined R (writeIf env c a l v) := inferInstance
      exact .confined hwrite
  | call k => exact composed_call k hst
  | machine m => exact .confined (confined_machineStmt m hst)
  | comment | instruction =>
      have hcomment : ∀ text, Confined R (Step.emit (.comment text)) := fun text =>
        .emit fun _ _ => hcomments trivial
      unfold stmt
      exact .confined inferInstance

/-- Statements are put together from steps within reach and the bindings that they make. -/
theorem composed_stmts (hcomments : R.comments) (sts : List Stmt)
    (hsts : ∀ st ∈ sts, ∀ v ∈ st.operands, R.Has v) :
    Composed R (sts.flatMap Stmt.binds) (sts.forM (stmt env)) := by
  induction sts with
  | nil => exact .confined (.pure ())
  | cons st sts ih =>
      obtain ⟨hst, hsts⟩ := List.forall_mem_cons.1 hsts
      rw [List.flatMap_cons]
      exact (composed_stmt st (fun _ => hcomments) hst).bind fun _ => ih hsts

-- ================================================================ the end

theorem confined_exitOperands {exits : Dict Register ExitValue}
    (h : ∀ r v, exits.get? r = some (.value v) → R.Has v) (rs : List Register)
    (done : ExitOperands) : Confined R (exitOperands env exits rs done) := by
  induction rs generalizing done with
  | nil => exact .pure done
  | cons r rs ih =>
      unfold exitOperands
      cases hr : exits.get? r with
      | none => infer_instance
      | some e =>
          cases e with
          | calleeSaved => infer_instance
          | value v =>
              have := h r v hr
              infer_instance

theorem confined_returnSlots (i : Nat) (r : Typed) {vs : List (Option Value)} (ts : List Ty)
    (hvs : ∀ v, some v ∈ vs → R.Has v) : Confined R (returnSlots env i r vs ts) := by
  induction vs generalizing i r ts with
  | nil => cases ts <;> exact .pure _
  | cons v vs ih =>
      have htail : ∀ v, some v ∈ vs → R.Has v := fun v hv => hvs v (List.mem_cons_of_mem _ hv)
      cases ts with
      | nil => cases v <;> exact .pure _
      | cons t ts =>
          cases v with
          | none => exact ih (i + 1) r ts htail
          | some v =>
              have := hvs v List.mem_cons_self
              have := fun r => ih (i + 1) r ts htail
              unfold returnSlots
              infer_instance

/-- A transfer stays within the reach of its operands. -/
theorem confined_transfer (sig : Signature) (t : Transfer) (ht : ∀ v ∈ t.operands, R.Has v) :
    Confined R (transfer env sig t) := by
  cases t with
  | jump => exact .pure _
  | branch c | table c =>
      have := ht c List.mem_cons_self
      unfold transfer
      infer_instance
  | ret vs =>
      have hvs : ∀ v, some v ∈ vs → R.Has v := fun v hv =>
        ht v (List.mem_filterMap.2 ⟨some v, hv, rfl⟩)
      have : Confined R (returnSlots env 0 ⟨.ofResults sig, .undef⟩ vs sig.rets) :=
        confined_returnSlots 0 _ sig.rets hvs
      unfold transfer
      infer_instance
  | tailCall dest s vs =>
      have : Confined R (callResults env true dest s vs) := confined_callResults true s ht
      unfold transfer
      infer_instance

end LiftedCode.Lowering
