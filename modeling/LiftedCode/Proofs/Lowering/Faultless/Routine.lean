/-
Routines without faults. A routine is refused for what is wrong with it, with its
graph or with one of its blocks, and never for a number, provided that the numbers
of its blocks fit (`settles_routine`).
-/
import LiftedCode.Lowering.Routine
import LiftedCode.Proofs.Lowering.Code
import LiftedCode.Proofs.Lowering.Faultless.Stmt

namespace LiftedCode

-- ================================================================ graphs

namespace BlockMap

variable {β : Type}

theorem settles_predecessors (m : BlockMap β) (l : Label) :
    Settles (m.predecessors l) fun _ => True := by
  unfold predecessors
  split
  · trivial
  · exact nofun

theorem settles_addEdges (preds : Dict Label (List Label)) (edges : List (Label × Label)) :
    Settles (addEdges preds edges) fun _ => True := by
  induction edges generalizing preds with
  | nil => trivial
  | cons e edges ih =>
      rw [addEdges]
      split
      · exact ih _
      · rintro f ⟨⟩

variable [FlowNode β]

/-- A block map is built, or refused with a verdict. -/
theorem settles_build (blocks : List β) : Settles (build blocks) fun _ => True := by
  unfold build
  dsimp only
  split
  · exact nofun
  · split
    · exact nofun
    · exact (settles_addEdges _ _).bind fun _ _ => trivial

theorem settles_get (m : BlockMap β) (l : Label) : Settles (m.get l) fun _ => True := by
  unfold get
  split
  · trivial
  · exact nofun

end BlockMap

namespace Routine

theorem settles_define (seen ids : List Ident) : Settles (define seen ids) fun _ => True := by
  induction ids generalizing seen with
  | nil => trivial
  | cons id ids ih =>
      rw [define]
      split
      · rintro f ⟨⟩
      · exact ih _

theorem settles_checkBlocks (labels : List Label) (seen : List Ident) (bs : List RoutineBlock) :
    Settles (checkBlocks labels seen bs) fun _ => True := by
  induction bs generalizing seen with
  | nil => trivial
  | cons b bs ih =>
      refine (settles_define seen b.binds).bind fun seen' _ => ?_
      split
      · exact nofun
      · exact ih seen'

/-- A routine passes its check, or is refused with a verdict. -/
theorem settles_check (r : Routine) : Settles r.check fun _ => True := by
  have hblock : Settles (r.block? r.entry) fun _ => True := by
    unfold block?
    split
    · trivial
    · exact nofun
  unfold check
  dsimp only
  split
  · exact nofun
  · refine hblock.bind fun entry _ => ?_
    split
    · exact nofun
    · exact settles_checkBlocks _ _ _

end Routine

namespace Lowering

open Llvm (Typed Intrinsic.tableFailure)

-- ================================================================ blocks

section

variable {types : Ident → Llvm.Ty → Prop} {fits : Prop} {b : RoutineBlock} {env : Env}

theorem obtains_bindPhis {ps : List PhiBinding} (h : ∀ p ∈ ps, p ∈ b.phis) :
    Obtains (Carries b) fits (bindPhis ps) fun _ => True := by
  induction ps with
  | nil => exact obtains_pure trivial
  | cons p ps ih =>
      obtain ⟨hp, hps⟩ := List.forall_mem_cons.1 h
      exact (obtains_bind (Carries.phi hp)).bind fun _ _ => ih hps

/-- The statements of a block are lowered or refused. -/
theorem obtains_stmts (henv : env.label = b.label) (h : InRange env.target b)
    (hmade : ∀ a, .assign a ∈ b.stmts → Assignment.make a.id a.rhs = .ok a) :
    Obtains (Carries b) True (b.stmts.forM (stmt env)) fun _ => True := by
  refine obtains_forM fun c hc => obtains_stmt henv h hc ?_
  rintro a rfl
  exact hmade a hc

theorem settles_wantedRegisters (map : BlockMap RoutineBlock) (b : RoutineBlock) :
    Settles (wantedRegisters map b) fun _ => True :=
  (settles_mapM fun l _ => BlockMap.settles_get map l).bind fun _ _ => trivial

theorem obtains_exitOperands (exits : Dict Register ExitValue) (rs : List Register)
    (done : ExitOperands) : Obtains types fits (exitOperands env exits rs done) fun _ => True := by
  induction rs generalizing done with
  | nil => exact obtains_pure trivial
  | cons r rs ih =>
      rw [exitOperands]
      split
      · exact ih done
      · split
        · exact (obtains_value env _).bind fun _ _ => ih _
        · exact ih _
        · exact ih _

theorem obtains_returnSlots (i : Nat) (results : Typed) (vs : List (Option Value))
    (ts : List Ty) : Obtains types fits (returnSlots env i results vs ts) fun _ => True := by
  induction vs generalizing i results ts with
  | nil => cases ts <;> exact obtains_pure trivial
  | cons v vs ih =>
      cases ts with
      | nil => cases v <;> exact obtains_pure trivial
      | cons t ts =>
          cases v with
          | none => exact ih (i + 1) results ts
          | some v =>
              refine (obtains_check (settles_expectTy _ _ _)).bind fun _ _ => ?_
              refine (obtains_value env v).bind fun _ _ => (obtains_assign _ _).bind fun x _ => ?_
              exact ih (i + 1) x ts

/-- A transfer is lowered or refused. -/
theorem obtains_transfer (signature : Signature) (t : Transfer) :
    Obtains types fits (transfer env signature t) fun _ => True := by
  cases t with
  | jump l => exact obtains_pure trivial
  | branch c l m =>
      refine (obtains_check (settles_expectTy _ _ _)).bind fun _ _ => ?_
      exact (obtains_value env c).bind fun _ _ => obtains_pure trivial
  | table i ls =>
      refine (obtains_check (settles_expectBits _ _)).bind fun w _ => ?_
      refine obtains_guard (by rintro f ⟨⟩) fun _ => ?_
      exact (obtains_value env i).bind fun _ _ => obtains_pure trivial
  | ret vs =>
      refine obtains_guard (by rintro f ⟨⟩) fun _ => ?_
      exact (obtains_returnSlots _ _ _ _).bind fun _ _ => obtains_pure trivial
  | tailCall dest s args =>
      refine obtains_guard (by rintro f ⟨⟩) fun _ => ?_
      exact (obtains_callResults true dest s args).bind fun _ _ => obtains_pure trivial

/-- A block whose widths are in range is lowered or refused. -/
theorem obtains_blockBody {signature : Signature} {map : BlockMap RoutineBlock}
    (henv : env.label = b.label) (h : InRange env.target b)
    (hmade : ∀ a, .assign a ∈ b.stmts → Assignment.make a.id a.rhs = .ok a) :
    Obtains (Carries b) True (blockBody env signature map b) fun _ => True := by
  refine (obtains_bindPhis fun _ hp => hp).bind fun _ _ => ?_
  refine (obtains_stmts henv h hmade).bind fun _ _ => ?_
  refine (obtains_check (settles_wantedRegisters map b)).bind fun wanted _ => ?_
  refine (obtains_exitOperands b.exits wanted ∅).bind fun exits _ => ?_
  refine (obtains_transfer signature b.transfer).bind fun terminator _ => ?_
  exact obtains_of_values (fun _ => rfl) (fun _ => trivial) nofun

/-- A block starts with nothing bound, so nothing that is bound is amiss. -/
theorem settles_block {target : Target} {signature : Signature} {map : BlockMap RoutineBlock}
    (h : InRange target b) (hmade : ∀ a, .assign a ∈ b.stmts → Assignment.make a.id a.rhs = .ok a) :
    SettlesFrom (fun _ => True) (block target signature map b) fun _ _ => True := by
  intro p _
  have hstart : Held (Carries b) (blockStart b p) := nofun
  have hbody : Obtains (Carries b) True
      (blockBody ⟨target, b.label, signature.args⟩ signature map b) fun _ => True :=
    obtains_blockBody rfl h hmade
  exact hbody.settles hstart

end

-- ========================================================== phi variables

theorem settles_phiOperand (done : Dict Label LoweredBlock) (p : PhiBinding) (pred : Label) :
    Settles (phiOperand done p pred) fun _ => True := by
  unfold phiOperand
  dsimp only
  split
  · exact nofun
  · refine ((settles_expectTy _ _ _).mapError fun _ => isVerdict_code).bind fun _ _ => ?_
    trivial

/-- Phi variables are given their values, or refused. -/
theorem settles_phis (map : BlockMap RoutineBlock) (done : Dict Label LoweredBlock)
    (b : RoutineBlock) : Settles (phis map done b) fun _ => True := by
  unfold phis
  split
  · trivial
  · have hpreds := (BlockMap.settles_predecessors map b.label).mapError
      (g := LoweringError.code) fun _ => isVerdict_code
    refine hpreds.bind fun preds _ => ?_
    split
    · exact nofun
    · refine (settles_mapM (R := fun _ => True) fun p _ => ?_).imp fun _ _ => trivial
      exact (settles_mapM fun pred _ => settles_phiOperand done p pred).bind fun _ _ => trivial

-- =============================================================== routines

theorem settles_lowerOrder (map : BlockMap RoutineBlock) (entry : Label) :
    Settles (lowerOrder map entry) fun _ => True :=
  (BlockMap.settles_get map entry).bind fun _ _ => trivial

theorem settles_initBlock (map : BlockMap RoutineBlock) (entry : Label) :
    Settles (initBlock map entry) fun _ => True := by
  refine (BlockMap.settles_predecessors map entry).bind fun preds _ => ?_
  split <;> trivial

/-- The check of a routine that is lowered, whatever the progress. -/
theorem settles_ofCheck {σ α : Type} {P : σ → Prop} {x : Except LoweringError α} {Q : α → Prop}
    (h : Settles x Q) : SettlesFrom P (ofCheck x) fun a s => Q a ∧ P s := settles_ofExcept h

/-- The report of a failure conflicts with another declaration or does not. -/
theorem settles_reportFailure (wanted : Bool) (d : LoweredDefinition) :
    SettlesFrom (fun _ => True) (reportFailure wanted d) fun _ _ => True := by
  cases wanted with
  | false => exact settles_pure fun _ _ => trivial
  | true =>
      intro p _
      have hdeclare : Settles ((p.declarations.declare Intrinsic.tableFailure).run p.log).1
        fun _ => True := settles_declaration _ _ _
      rw [run_reportFailure_wanted]
      generalize (p.declarations.declare Intrinsic.tableFailure).run p.log = out at hdeclare ⊢
      obtain ⟨_ | _, _⟩ := out
      · exact hdeclare
      · trivial

/-- A routine whose widths are in range is lowered or refused. -/
theorem settles_routineBody {target : Target} {r : Routine} {map : BlockMap RoutineBlock}
    (hr : r.WellFormed) (hmap : r.blockMap = .ok map) (h : ∀ b ∈ r.blocks, InRange target b)
    (hmade : ∀ b ∈ r.blocks, ∀ a, .assign a ∈ b.stmts → Assignment.make a.id a.rhs = .ok a) :
    SettlesFrom (fun _ => True) (routineBody target r map) fun _ _ => True := by
  have horder := (settles_lowerOrder map r.entry).eq_ok.mapError
    (g := LoweringError.code) fun _ => isVerdict_code
  refine (settles_ofCheck horder).bindWith fun order horder => ?_
  have hmem : ∀ b ∈ order, b ∈ r.blocks := fun b hb =>
    ((of_lowerOrder hr hmap horder.2).2.1 b).1 hb
  refine (settles_mapM_from fun b hb =>
    settles_block (h b (hmem b hb)) (hmade b (hmem b hb))).bind fun lowered => ?_
  have hphis : ∀ done, Settles (order.mapM (phis map done)) fun cs => ∀ c ∈ cs, True :=
    fun done => settles_mapM fun b _ => settles_phis map done b
  refine (settles_ofCheck (hphis _)).bindWith fun chosen _ => ?_
  have hinit := (settles_initBlock map r.entry).mapError
    (g := LoweringError.code) fun _ => isVerdict_code
  exact (settles_ofCheck hinit).bindWith fun init _ => settles_reportFailure _ _

/-- A routine whose assignments were made is lowered, or refused for what is wrong
with it. -/
theorem settles_routine {target : Target} {r : Routine} (h : ∀ b ∈ r.blocks, InRange target b)
    (hmade : ∀ b ∈ r.blocks, ∀ a, .assign a ∈ b.stmts → Assignment.make a.id a.rhs = .ok a)
    (log : Log) : Settles ((routine target r).run.run log).1 fun _ => True := by
  have hwrite : ∀ rec : LogRecord, SettlesFrom (fun _ => True)
      (Logged.write rec : Logged LoweringError Unit) fun _ _ => True :=
    fun rec => settles_modify fun _ _ => trivial
  have hcheck := (Routine.settles_check r).eq_ok.mapError
    (g := LoweringError.code) fun _ => isVerdict_code
  have hmap := (BlockMap.settles_build r.blocks).eq_ok.mapError
    (g := LoweringError.code) fun _ => isVerdict_code
  have hroutine : SettlesFrom (fun _ => True) (routine target r) fun _ _ => True := by
    refine (hwrite _).bind fun _ => ?_
    refine (settles_ofExcept hcheck).bindWith fun _ hr => ?_
    refine (settles_ofExcept hmap).bindWith fun map hmap => (hwrite _).bind fun _ => ?_
    intro log _
    have hbody := settles_routineBody (Routine.wellFormed_of_check hr.2) hmap.2 h hmade
      ⟨0, ∅, log⟩ trivial
    simp only [ExceptT.run_mk, StateT.run] at hbody ⊢
    generalize (routineBody target r map).run _ = out at hbody ⊢
    obtain ⟨e | d, p⟩ := out
    · exact hbody
    · trivial
  exact hroutine log trivial

end Lowering

end LiftedCode
