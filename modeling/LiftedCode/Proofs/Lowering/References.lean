/-
The functions that a routine refers to: those that it calls, and those whose
addresses it reads as values. Either asks for the function to be declared, and
declarations are never lost, so a lowered routine comes with a declaration for
each function that it refers to (`declared_of_refersTo`), with the types that the
reference has.

# The argument

Every stage in the lowering of a block loses no declaration and declares the
functions among the values that it looks at (`Declared`), so all of them are
declared at the end of the block (`declared_block`), and of the routine. These are
the values that statements and transfers read, and those of the registers that the
block hands out for the phi variables behind it. A call may say something else of
the types of its function than the function itself does, but is not lowered then
(`signature_of_call`).
-/
import LiftedCode.Proofs.Lowering.Phis
import LiftedCode.Proofs.Lowering.Reads

namespace LiftedCode

/-- The values that a block hands out for some registers. -/
def exitValues (exits : Dict Register ExitValue) (rs : List Register) : List Value :=
  rs.filterMap fun r => match exits.get? r with
    | some (.value v) => some v
    | some (.calleeSaved _) | none => none

/-- The values that are handed out for registers. -/
theorem mem_exitValues {exits : Dict Register ExitValue} {rs : List Register} {v : Value} :
    v ∈ exitValues exits rs ↔ ∃ r ∈ rs, exits.get? r = some (.value v) := by
  rw [exitValues, List.mem_filterMap]
  refine exists_congr fun r => and_congr_right fun _ => ?_
  split
  case h_1 u hu => rw [hu, Option.some.injEq, Option.some.injEq, ExitValue.value.injEq]
  case h_2 | h_3 => simp [*]

/-- The values that the lowering of a block looks at, if some registers are wanted. -/
def RoutineBlock.lookedAt (b : RoutineBlock) (wanted : List Register) : List Value :=
  b.stmts.flatMap Stmt.operands ++ exitValues b.exits wanted ++ b.transfer.operands

/-- A value is looked at by a statement, for a register that is wanted, or by the
transfer. -/
theorem RoutineBlock.mem_lookedAt {b : RoutineBlock} {wanted : List Register} {v : Value} :
    v ∈ b.lookedAt wanted ↔ (∃ st ∈ b.stmts, v ∈ st.operands)
      ∨ (∃ r ∈ wanted, b.exits.get? r = some (.value v)) ∨ v ∈ b.transfer.operands := by
  rw [lookedAt, List.mem_append, List.mem_append, List.mem_flatMap, mem_exitValues, or_assoc]

/-- The routine refers to a known function, as one with the types. -/
inductive Routine.RefersTo (r : Routine) (f : FunctionRef) : Signature → Prop where
  | call {b : RoutineBlock} {k : Call} (hb : b ∈ r.blocks) (hk : .call k ∈ b.stmts)
      (hdest : k.dest = .entry f) : r.RefersTo f k.signature
  | tailCall {b : RoutineBlock} {σ : Signature} {vs : List Value} (hb : b ∈ r.blocks)
      (ht : b.transfer = .tailCall (.entry f) σ vs) : r.RefersTo f σ
  | stmt {b : RoutineBlock} {st : Stmt} (hb : b ∈ r.blocks) (hst : st ∈ b.stmts)
      (hf : .entry f ∈ st.operands) : r.RefersTo f f.signature
  | transfer {b : RoutineBlock} (hb : b ∈ r.blocks) (hf : .entry f ∈ b.transfer.operands) :
      r.RefersTo f f.signature
  /-- The address is handed on to a phi variable. -/
  | exit {b b' : RoutineBlock} {q : PhiBinding} (hb : b ∈ r.blocks) (hb' : b' ∈ r.blocks)
      (hedge : b'.label ∈ b.transfer.successors) (hq : q ∈ b'.phis)
      (hf : b.exits.get? q.reg = some (.value (.entry f))) : r.RefersTo f f.signature

namespace Lowering

open Llvm (Typed)

variable {env : Env} {s s' : State} {u : Unit} {vs : List Value}

-- ================================================================ stages

/-- Phi variables are bound without a declaration. -/
theorem declared_bindPhis {ps : List PhiBinding} (h : Succeeds (bindPhis ps) s u s') :
    Declared [] s.declarations s'.declarations := by
  induction ps generalizing s with
  | nil => exact (succeeds_pure h).2 ▸ .refl _
  | cons p ps ih =>
      obtain ⟨_, s₁, hbind, h⟩ := succeeds_bind h
      obtain rfl := succeeds_bindIdent hbind
      have hrest := ih h
      exact hrest

/-- Statements declare the functions among their operands. -/
theorem declared_stmts {sts : List Stmt} (h : Succeeds (sts.forM (stmt env)) s u s') :
    Declared (sts.flatMap Stmt.operands) s.declarations s'.declarations := by
  induction sts generalizing s with
  | nil => exact (succeeds_pure h).2 ▸ .refl _
  | cons st sts ih =>
      obtain ⟨_, s₁, hst, h⟩ := succeeds_bind h
      exact (met_of_stmt hst).toDeclared.trans (ih h)

/-- What has been handed out for registers is declared. -/
def DoneDeclared (exits : Dict Register ExitValue) (done : ExitOperands) (s : State) : Prop :=
  ∀ r e f, done.get? r.name = some e → exits.get? r = some (.value (.entry f)) →
    s.declarations.get? f.name = some (.ofFunction f.name f.signature)

/-- What is handed out for registers comes to be declared. A register that is done is not
looked at again. -/
theorem declared_exitOperands {exits : Dict Register ExitValue} {rs : List Register}
    {done done' : ExitOperands} (hdone : DoneDeclared exits done s)
    (h : Succeeds (exitOperands env exits rs done) s done' s') :
    Declared (exitValues exits rs) s.declarations s'.declarations := by
  induction rs generalizing s done with
  | nil => exact (succeeds_pure h).2 ▸ .refl _
  | cons q rs ih =>
      unfold exitOperands at h
      split at h
      case isTrue hcontains =>
        obtain ⟨e, he⟩ := Option.isSome_iff_exists.1 hcontains
        have hrest := ih hdone h
        refine ⟨hrest.kept, fun f hf => ?_⟩
        obtain ⟨r, hr, hv⟩ := mem_exitValues.1 hf
        rcases List.mem_cons.1 hr with rfl | hr
        · exact hrest.kept _ _ (hdone r e f he hv)
        · exact hrest.entries f (mem_exitValues.2 ⟨r, hr, hv⟩)
      case isFalse =>
        -- the other registers, once something is handed out for this one
        have hgo : ∀ e s₁, Declared (exitValues exits [q]) s.declarations s₁.declarations →
            Succeeds (exitOperands env exits rs (done.insert q.name e)) s₁ done' s' →
            Declared (exitValues exits (q :: rs)) s.declarations s'.declarations := by
          intro e s₁ hq h₁
          rw [← List.singleton_append, exitValues, List.filterMap_append]
          refine hq.trans (ih (fun r e' f he' hv => ?_) h₁)
          rw [Dict.get?_insert] at he'
          split at he'
          case isTrue hname =>
            obtain rfl := Register.name_injective hname
            exact hq.entries f (mem_exitValues.2 ⟨q, List.mem_cons_self, hv⟩)
          case isFalse => exact hq.kept _ _ (hdone r e' f he' hv)
        split at h
        case h_1 v hv =>
          obtain ⟨x, s₁, hx, h⟩ := succeeds_bind h
          refine hgo _ s₁ ?_ h
          rw [show exitValues exits [q] = [v] by simp [exitValues, hv]]
          exact (demands_value v s x s₁ hx).2.toDeclared
        all_goals
          rename_i hv
          refine hgo _ s ?_ h
          rw [show exitValues exits [q] = [] by simp [exitValues, hv]]
          exact .refl _

/-- All values that are returned are needed, if there is a type for each. -/
theorem demands_returnSlots {x : Typed} {i : Nat} {os : List (Option Value)} {ts : List Ty}
    (h : os.length = ts.length) :
    Demands env (os.filterMap id) (returnSlots env i x os ts) := by
  induction os generalizing i x ts with
  | nil => cases ts <;> exact demands_pure _
  | cons o os ih =>
      cases ts with
      | nil => contradiction
      | cons t ts =>
          cases o with
          | none => exact ih (Nat.succ.inj h)
          | some v =>
              exact (demands_ofExcept _).bind fun _ => (demands_value v).bind fun _ =>
                (demands_assign _ _).bind fun _ => ih (Nat.succ.inj h)

/-- A transfer needs all of its operands. -/
theorem demands_transfer (sig : Signature) (t : Transfer) :
    Demands env t.operands (transfer env sig t) := by
  cases t with
  | jump => exact demands_pure _
  | branch c l m =>
      exact (demands_ofExcept _).bind fun _ => (demands_value c).bind fun _ => demands_pure _
  | table i ls =>
      refine (demands_ofExcept _).bind fun w => demands_guard fun _ => ?_
      exact (demands_value i).bind fun _ => demands_pure _
  | ret os =>
      refine demands_guard fun hlen => ?_
      exact ((demands_returnSlots (not_not.1 hlen)).bind fun _ => demands_pure _).subset
        (List.subset_append_left _ _)
  | tailCall dest σ vs =>
      refine demands_guard fun _ => ?_
      exact ((demands_callResults true dest σ vs).bind fun _ => demands_pure _).subset
        (List.subset_append_left _ _)

-- ================================================================ blocks

variable {target : Target} {sig : Signature} {r : Routine} {map : BlockMap RoutineBlock}
  {b : RoutineBlock} {p p' : Progress} {f : FunctionRef} {σ : Signature}

/-- The functions among the values that a block looks at are declared once it is
lowered. -/
theorem declared_block {lb : LoweredBlock} (h : Succeeds (block target sig map b) p lb p') :
    ∃ wanted, wantedRegisters map b = .ok wanted
      ∧ Declared (b.lookedAt wanted) p.declarations p'.declarations := by
  obtain ⟨s₁, s₂, s₃, s₄, wanted, st, rfl⟩ := staged_of_succeeds target sig map h
  have hempty : DoneDeclared b.exits ∅ s₂ := by
    intro r e f he
    rw [Dict.get?_empty] at he
    contradiction
  have hphis : Declared [] p.declarations s₁.declarations := declared_bindPhis st.phis
  have hstmts := declared_stmts st.stmts
  have hexits := declared_exitOperands hempty st.exits
  have htransfer := (demands_transfer sig b.transfer _ _ _ st.transfer).2.toDeclared
  exact ⟨wanted, st.asked, ((hphis.trans hstmts).trans hexits).trans htransfer⟩

/-- Blocks that are lowered one after the other declare the functions that they look at. -/
theorem declared_mapM {bs : List RoutineBlock} {ls : List LoweredBlock}
    (h : Succeeds (bs.mapM (block target sig map)) p ls p') :
    Declared [] p.declarations p'.declarations
      ∧ ∀ b ∈ bs, ∃ wanted, wantedRegisters map b = .ok wanted
        ∧ Declared (b.lookedAt wanted) p.declarations p'.declarations := by
  induction bs generalizing p ls with
  | nil => exact ⟨(succeeds_pure h).2 ▸ .refl _, nofun⟩
  | cons b bs ih =>
      rw [List.mapM_cons] at h
      obtain ⟨lb, p₁, hlb, h⟩ := succeeds_bind h
      obtain ⟨ls', p₂, hls, h⟩ := succeeds_bind h
      obtain ⟨rfl, rfl⟩ := succeeds_pure h
      obtain ⟨wanted, hwanted, hb⟩ := declared_block hlb
      obtain ⟨hkept, hrest⟩ := ih hls
      have hnil : Declared [] p.declarations p₁.declarations := hb.subset (List.nil_subset _)
      refine ⟨hnil.trans hkept, List.forall_mem_cons.2 ⟨⟨wanted, hwanted, ?_⟩, fun b' hb' => ?_⟩⟩
      · exact (hb.trans hkept).subset (List.subset_append_left _ _)
      · obtain ⟨wanted', hwanted', hb'⟩ := hrest b' hb'
        exact ⟨wanted', hwanted', hnil.trans hb'⟩

-- ================================================================= calls

/-- A function that is called has the types of the call. -/
theorem signature_of_callResults {isTail : Bool} {x : Typed}
    (h : Succeeds (callResults env isTail (.entry f) σ vs) s x s') : f.signature = σ := by
  obtain ⟨o, s₁, hcallee, -⟩ := succeeds_bind h
  obtain ⟨-, hcallee⟩ := succeeds_guard hcallee
  exact not_not.1 (succeeds_guard hcallee).1

/-- A statement among some that are lowered is lowered from some state. -/
theorem exists_succeeds_of_mem {sts : List Stmt} {st : Stmt}
    (h : Succeeds (sts.forM (stmt env)) s u s') (hst : st ∈ sts) :
    ∃ s₁ s₂, Succeeds (stmt env st) s₁ () s₂ := by
  induction sts generalizing s with
  | nil => contradiction
  | cons c sts ih =>
      obtain ⟨_, s₁, hc, h⟩ := succeeds_bind h
      rcases List.mem_cons.1 hst with rfl | hst
      · exact ⟨s, s₁, hc⟩
      · exact ih h hst

/-- A call that is lowered has the types of the function that it calls. -/
theorem signature_of_call {lb : LoweredBlock} {k : Call}
    (h : Succeeds (block target sig map b) p lb p') (hk : .call k ∈ b.stmts)
    (hdest : k.dest = .entry f) : f.signature = k.signature := by
  obtain ⟨_, _, _, _, _, st, -⟩ := staged_of_succeeds target sig map h
  obtain ⟨_, _, hcall⟩ := exists_succeeds_of_mem st.stmts hk
  obtain ⟨x, s₁, hresults, -⟩ := succeeds_bind hcall
  rw [hdest] at hresults
  exact signature_of_callResults hresults

/-- A tail call that is lowered has the types of the function that it calls. -/
theorem signature_of_tailCall {lb : LoweredBlock}
    (h : Succeeds (block target sig map b) p lb p') (ht : b.transfer = .tailCall (.entry f) σ vs) :
    f.signature = σ := by
  obtain ⟨_, _, _, _, _, st, -⟩ := staged_of_succeeds target sig map h
  have hrun := st.transfer
  rw [ht] at hrun
  obtain ⟨-, hrun⟩ := succeeds_guard hrun
  obtain ⟨x, s₁, hresults, -⟩ := succeeds_bind hrun
  exact signature_of_callResults hresults

-- ============================================================== routines

/-- Every block of a lowered routine was lowered, and the functions that it looks at are
declared. -/
theorem exists_lowered {log log' : Log} {l : LoweredRoutine}
    (h : Succeeds (routine target r) log l log') (hb : b ∈ r.blocks) :
    ∃ map wanted p lb p', r.WellFormed ∧ r.blockMap = .ok map
      ∧ wantedRegisters map b = .ok wanted
      ∧ Succeeds (block target r.signature map b) p lb p'
      ∧ ∀ f, .entry f ∈ b.lookedAt wanted →
        l.declarations.get? f.name = some (.ofFunction f.name f.signature) := by
  obtain ⟨hcheck, map, p, p', hmap, hbody, -, hdecls⟩ := of_routine h
  obtain ⟨order, ls, q, cs, init, horder, hls, -, -, -, hold, -⟩ := of_routineBody hbody
  have hr : r.WellFormed := Routine.wellFormed_of_check hcheck
  have hmem := ((of_lowerOrder hr hmap horder).2.1 b).2 hb
  obtain ⟨wanted, hwanted, hdeclared⟩ := (declared_mapM hls).2 b hmem
  obtain ⟨i, hi⟩ := List.mem_iff_getElem?.1 hmem
  obtain ⟨lb, p₁, p₂, -, -, hrun⟩ := succeeds_mapM_take hls hi
  refine ⟨map, wanted, p₁, lb, p₂, hr, hmap, hwanted, hrun, fun f hf => ?_⟩
  rw [hdecls]
  exact hold (.ofFunction f.name f.signature) (hdeclared.entries f hf)

/-- A lowered routine comes with a declaration for every function that it refers
to, with the types of the reference. -/
theorem declared_of_refersTo {log log' : Log} {l : LoweredRoutine}
    (h : Succeeds (routine target r) log l log') (hrefers : r.RefersTo f σ) :
    l.declarations.get? f.name = some (.ofFunction f.name σ) := by
  cases hrefers with
  | @call b k hb hk hdest =>
      obtain ⟨map, wanted, _, _, _, -, -, -, hrun, hall⟩ := exists_lowered h hb
      rw [← signature_of_call hrun hk hdest]
      refine hall f (RoutineBlock.mem_lookedAt.2 (.inl ⟨_, hk, ?_⟩))
      rw [Stmt.operands, hdest]
      exact List.mem_cons_self
  | @tailCall b _ vs hb ht =>
      obtain ⟨map, wanted, _, _, _, -, -, -, hrun, hall⟩ := exists_lowered h hb
      rw [← signature_of_tailCall hrun ht]
      refine hall f (RoutineBlock.mem_lookedAt.2 (.inr (.inr ?_)))
      rw [ht]
      exact List.mem_cons_self
  | stmt hb hst hf =>
      obtain ⟨map, wanted, _, _, _, -, -, -, -, hall⟩ := exists_lowered h hb
      exact hall f (RoutineBlock.mem_lookedAt.2 (.inl ⟨_, hst, hf⟩))
  | transfer hb hf =>
      obtain ⟨map, wanted, _, _, _, -, -, -, -, hall⟩ := exists_lowered h hb
      exact hall f (RoutineBlock.mem_lookedAt.2 (.inr (.inr hf)))
  | exit hb hb' hedge hq hf =>
      obtain ⟨map, wanted, _, _, _, hr, hmap, hwanted, -, hall⟩ := exists_lowered h hb
      exact hall f (RoutineBlock.mem_lookedAt.2 (.inr (.inl
        ⟨_, mem_wantedRegisters hr hmap hwanted hb' hedge hq, hf⟩)))

end Lowering

end LiftedCode
