/-
Blocks under different options. Statements are lowered alike, and so are the
transfers of control and what a block hands out (`agree_blockBody`). The marks of
instructions are comments with an address in them, which has to be in range for
the options not to matter (`alike_stmt`).
-/
import LiftedCode.Lowering.Block
import LiftedCode.Proofs.Lowering.Block
import LiftedCode.Proofs.Lowering.Options.Operation

namespace LiftedCode.Lowering

open Llvm (Typed Instr Operand Declaration essence Intrinsic.tableFailure)

variable {env : Env} {o o' : Options}

-- ================================================================== calls

theorem alike_assignment (a : Assignment Value) (ha : ∀ v ∈ a.rhs.operands, v.IsFree) :
    Alike (assignment (env.withOptions o) a) (assignment (env.withOptions o') a) := by
  obtain ⟨id, rhs, t⟩ := a
  cases rhs with
  | app f => exact (alike_app f ha).bind fun x => alike_bind id x
  | undefined => exact alike_bind id _
  | read v l =>
      exact (alike_read (List.forall_mem_singleton.1 ha) l).bind fun x => alike_bind id x
  | readIf l c v d =>
      obtain ⟨hc, ha⟩ := List.forall_mem_cons.1 ha
      obtain ⟨hv, hd⟩ := isFree_pair ha
      exact (alike_readIf l hc hv hd).bind fun x => alike_bind id x
  | machine f => exact (alike_machineFn f ha).bind fun x => alike_bind id x

theorem alike_calleeAt {dest : Value} (hdest : dest.IsFree) :
    Alike (calleeAt (env.withOptions o) dest) (calleeAt (env.withOptions o') dest) :=
  (alike_check _).bind fun _ => (alike_address hdest).bind fun _ => alike_pure _

theorem alike_callee {dest : Value} (hdest : dest.IsFree) (s : Signature) :
    Alike (callee (env.withOptions o) dest s) (callee (env.withOptions o') dest s) := by
  refine agree_guard _ fun _ => ?_
  cases dest with
  | entry f =>
      refine agree_guard _ fun _ => ?_
      have hf : (Declaration.ofFunction f.name s).name ≠ Intrinsic.tableFailure.name := hdest
      exact (alike_declare hf).bind fun _ => alike_pure _
  | bits | bool | assigned | initial | phi | returned | arg => exact alike_calleeAt hdest

theorem alike_arguments (i : Nat) {vs : List Value} (ts : List Ty) (hvs : ∀ v ∈ vs, v.IsFree) :
    Alike (arguments (env.withOptions o) i vs ts) (arguments (env.withOptions o') i vs ts) := by
  induction vs generalizing i ts with
  | nil => cases ts <;> exact alike_pure _
  | cons v vs ih =>
      obtain ⟨hv, hvs⟩ := List.forall_mem_cons.1 hvs
      cases ts with
      | nil => exact alike_pure _
      | cons t ts =>
          refine (alike_check _).bind fun _ => ?_
          refine (alike_value hv).bind fun x => ?_
          exact (ih (i + 1) ts hvs).bind fun xs => alike_pure _

theorem alike_callResults (isTail : Bool) {dest : Value} (s : Signature) {vs : List Value}
    (hdest : dest.IsFree) (hvs : ∀ v ∈ vs, v.IsFree) :
    Alike (callResults (env.withOptions o) isTail dest s vs)
      (callResults (env.withOptions o') isTail dest s vs) := by
  refine (alike_callee hdest s).bind fun f => ?_
  refine agree_guard _ fun _ => ?_
  exact (alike_arguments 0 s.args hvs).bind fun xs => alike_assign _ _

theorem alike_bindResults (r : Typed) (i : Nat) (vs : List Variable) (ts : List Ty) :
    Alike (bindResults r i vs ts) (bindResults r i vs ts) := by
  induction vs generalizing i ts with
  | nil => cases ts <;> exact alike_pure _
  | cons v vs ih =>
      cases ts with
      | nil => exact alike_pure _
      | cons t ts =>
          refine (alike_check _).bind fun _ => ?_
          refine (alike_assign _ _).bind fun x => ?_
          exact (alike_bind _ _).bind fun _ => ih (i + 1) ts

theorem alike_callStmt (c : Call) (hc : ∀ v ∈ c.dest :: c.args, v.IsFree) :
    Alike (call (env.withOptions o) c) (call (env.withOptions o') c) := by
  obtain ⟨hdest, hargs⟩ := List.forall_mem_cons.1 hc
  refine (alike_callResults false c.signature hdest hargs).bind fun r => ?_
  refine agree_guard _ fun _ => ?_
  exact alike_bindResults r 0 _ _

-- ============================================================= statements

/-- A statement whose instruction mark, if it is one, is in range. Only remarks
and marks look at the options. -/
theorem alike_stmt (c : Stmt) (hc : ∀ v ∈ c.operands, v.IsFree)
    (hmark : ∀ offset name, c = .instruction offset name → env.label + offset < Address.limit) :
    Alike (stmt (env.withOptions o) c) (stmt (env.withOptions o') c) := by
  cases c with
  | assign a => exact alike_assignment a hc
  | write addr l v =>
      obtain ⟨haddr, hv⟩ := isFree_pair hc
      exact alike_write haddr l hv
  | writeIf k addr l v =>
      obtain ⟨hk, hc⟩ := List.forall_mem_cons.1 hc
      obtain ⟨haddr, hv⟩ := isFree_pair hc
      exact alike_writeIf hk haddr l hv
  | call k => exact alike_callStmt k hc
  | machine m => exact alike_machineStmt m hc
  | comment text => exact alike_comment o.comments o'.comments text
  | instruction offset name =>
      have hadd : Address.add env.label offset = .ok (env.label + offset) := by
        rw [Address.add, inRange, if_pos (decide_eq_true (hmark offset name rfl))]
      have hstmt : ∀ o : Options, stmt (env.withOptions o) (.instruction offset name)
          = if o.comments then
              Step.emit (.comment (Numeral.hex (env.label + offset) ++ ": " ++ name))
            else pure () := by
        intro o
        show (if o.comments = true then Step.ofFault (Address.add env.label offset) >>= fun addr =>
          Step.emit (.comment (Numeral.hex addr ++ ": " ++ name)) else pure ()) = _
        rw [hadd]
        rfl
      rw [hstmt, hstmt]
      exact alike_comment o.comments o'.comments _

/-- Statements whose instruction marks are in range. -/
theorem alike_stmts (cs : List Stmt) (hcs : ∀ c ∈ cs, ∀ v ∈ c.operands, v.IsFree)
    (hmarks : ∀ offset name, .instruction offset name ∈ cs → env.label + offset < Address.limit) :
    Alike (cs.forM (stmt (env.withOptions o))) (cs.forM (stmt (env.withOptions o'))) := by
  refine agree_forM fun c hc => alike_stmt c (hcs c hc) ?_
  rintro offset name rfl
  exact hmarks offset name hc

-- ================================================================= blocks

theorem alike_bindPhis (ps : List PhiBinding) : Alike (bindPhis ps) (bindPhis ps) := by
  induction ps with
  | nil => exact alike_pure ()
  | cons p ps ih => exact (alike_bind _ _).bind fun _ => ih

theorem alike_exitOperands {exits : Dict Register ExitValue} (rs : List Register)
    (done : ExitOperands) (hexits : ∀ r v, exits.get? r = some (.value v) → v.IsFree) :
    Alike (exitOperands (env.withOptions o) exits rs done)
      (exitOperands (env.withOptions o') exits rs done) := by
  induction rs generalizing done with
  | nil => exact alike_pure done
  | cons r rs ih =>
      unfold exitOperands
      by_cases hdone : done.contains r.name = true
      · simp only [if_pos hdone]
        exact ih done
      · simp only [if_neg hdone]
        cases hr : exits.get? r with
        | none => exact ih _
        | some e =>
            cases e with
            | calleeSaved => exact ih _
            | value v => exact (alike_value (hexits r v hr)).bind fun x => ih _

theorem alike_returnSlots (i : Nat) (r : Typed) {vs : List (Option Value)} (ts : List Ty)
    (hvs : ∀ v, some v ∈ vs → v.IsFree) :
    Alike (returnSlots (env.withOptions o) i r vs ts)
      (returnSlots (env.withOptions o') i r vs ts) := by
  induction vs generalizing i r ts with
  | nil => cases ts <;> exact alike_pure _
  | cons v vs ih =>
      have htail : ∀ v, some v ∈ vs → v.IsFree := fun v hv => hvs v (List.mem_cons_of_mem _ hv)
      cases ts with
      | nil => cases v <;> exact alike_pure _
      | cons t ts =>
          cases v with
          | none => exact ih (i + 1) r ts htail
          | some v =>
              refine (alike_check _).bind fun _ => ?_
              refine (alike_value (hvs v List.mem_cons_self)).bind fun x => ?_
              exact (alike_assign _ _).bind fun r => ih (i + 1) r ts htail

theorem alike_transfer (sig : Signature) (t : Transfer) (ht : ∀ v ∈ t.operands, v.IsFree) :
    Alike (transfer (env.withOptions o) sig t) (transfer (env.withOptions o') sig t) := by
  cases t with
  | jump l => exact alike_pure _
  | branch c l m =>
      refine (alike_check _).bind fun _ => ?_
      exact (alike_value (List.forall_mem_singleton.1 ht)).bind fun x => alike_pure _
  | table i ls =>
      refine (alike_check _).bind fun w => ?_
      refine agree_guard _ fun _ => ?_
      exact (alike_value (List.forall_mem_singleton.1 ht)).bind fun x => alike_pure _
  | ret vs =>
      refine agree_guard _ fun _ => ?_
      have hvs : ∀ v, some v ∈ vs → v.IsFree := fun v hv =>
        ht v (List.mem_filterMap.2 ⟨some v, hv, rfl⟩)
      exact (alike_returnSlots 0 _ sig.rets hvs).bind fun x => alike_pure _
  | tailCall dest s vs =>
      obtain ⟨hdest, hvs⟩ := List.forall_mem_cons.1 ht
      refine agree_guard _ fun _ => ?_
      exact (alike_callResults true s hdest hvs).bind fun x => alike_pure _

/-- Blocks that are the same but for what options may touch. -/
structure SameBlock (l l' : LoweredBlock) : Prop where
  label : l.label = l'.label
  instrs : essence l.instrs = essence l'.instrs
  terminator : l.terminator = l'.terminator
  exits : l.exits = l'.exits

/-- What a block asks for does not report a failure, and its instruction marks
are in range. -/
structure Neutral (b : RoutineBlock) : Prop where
  reads : ∀ v ∈ b.reads, v.IsFree
  marks : ∀ offset name, .instruction offset name ∈ b.stmts → b.label + offset < Address.limit

theorem agree_blockBody (sig : Signature) (map : BlockMap RoutineBlock) {b : RoutineBlock}
    (hb : Neutral b) (henv : env.label = b.label) :
    Agree Like SameBlock Like (blockBody (env.withOptions o) sig map b)
      (blockBody (env.withOptions o') sig map b) := by
  have hstmts : ∀ c ∈ b.stmts, ∀ v ∈ c.operands, v.IsFree := fun c hc v hv =>
    hb.reads v (RoutineBlock.mem_reads_of_stmt hc hv)
  have htransfer : ∀ v ∈ b.transfer.operands, v.IsFree := fun v hv =>
    hb.reads v (RoutineBlock.mem_reads_of_transfer hv)
  have hexits : ∀ r v, b.exits.get? r = some (.value v) → v.IsFree := fun r v hv =>
    hb.reads v (RoutineBlock.mem_reads_of_exit hv)
  refine (alike_bindPhis _).bind fun _ => ?_
  refine (alike_stmts b.stmts hstmts (henv ▸ hb.marks)).bind fun _ => ?_
  refine (alike_check _).bind fun wanted => ?_
  refine (alike_exitOperands wanted ∅ hexits).bind fun exits => ?_
  refine (alike_transfer sig b.transfer htransfer).bind fun terminator => ?_
  refine agree_get.bindRel fun s t hst => ?_
  exact agree_pure ⟨rfl, hst.instrs, rfl, rfl⟩

end LiftedCode.Lowering
