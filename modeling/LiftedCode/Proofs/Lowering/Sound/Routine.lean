/-
The discipline of whole routines. The code of a lowered routine is a list of
rows, one for each block of the routine: the block, what it was lowered to, and
its phi variables (`Assembled`). The temporaries of one row begin where those of
the row before end, and the operands of a phi variable are in sight at the end
of the rows that they are taken from.
-/
import LiftedCode.Proofs.Lowering.Simulation
import LiftedCode.Proofs.Lowering.Sound.Block

namespace LiftedCode

-- ================================================ what is promised

namespace RoutineBlock

/-- The identifiers that the block binds, calls among what binds them, with
their types. -/
def typings (b : RoutineBlock) : List (Ident × Ty) :=
  b.phis.map (fun p => (p.var.id, p.var.ty)) ++ b.stmts.flatMap Stmt.bindings

/-- A well typed block. Its statements passed their checks, an identifier has
one type, and there are types for all that it reads and binds. -/
structure WellTyped (b : RoutineBlock) : Prop where
  stmts : ∀ st ∈ b.stmts, st.WellTyped
  consistent : ∀ v ∈ b.reads, ∀ e ∈ v.name?, ∀ e' ∈ b.typings, e'.1 = e.1 → e'.2 = e.2
  reads : ∀ v ∈ b.reads, v.ty.lowerable = true
  binds : ∀ e ∈ b.typings, e.2.lowerable = true
  results : ∀ st ∈ b.stmts, ∀ t ∈ st.resultTys, t.lowerable = true

end RoutineBlock

namespace Routine

/-- The blocks are well typed, and results can be lowered. -/
structure WellTyped (r : Routine) : Prop where
  blocks : ∀ b ∈ r.blocks, b.WellTyped
  rets : ∀ t ∈ r.signature.rets, t.lowerable = true

/-- Whether a statement is lowered to a cast of an integer of one bit to its own
type. -/
def CastsUnit (r : Routine) : Prop := ∃ b ∈ r.blocks, ∃ st ∈ b.stmts, st.castsUnit = true

instance (r : Routine) : Decidable r.CastsUnit :=
  inferInstanceAs (Decidable (∃ b ∈ r.blocks, ∃ st ∈ b.stmts, st.castsUnit = true))

end Routine

namespace Lowering

open Llvm (Typed Local Operand BlockName Phi Instr Terminator Code Declaration
  Intrinsic.tableFailure)

section

variable (target : Target) (r : Routine) (map : BlockMap RoutineBlock)
  (done : Dict Label LoweredBlock) (typed : Prop)

/-- What the lowering of a block of a routine is judged by, when its temporaries
begin with `n`. -/
def setting (b : RoutineBlock) (n : Nat) : Setting where
  env := ⟨target, b.label, r.signature.args⟩
  phis := b.phis
  first := n
  kinds id t := (id, t) ∈ b.typings
  typed := typed
  casts := r.CastsUnit

/-- A block of a routine with what has become of it. -/
structure Row where
  block : RoutineBlock
  lowered : LoweredBlock
  phis : List Phi

/-- The block of the code. -/
def Row.code (w : Row) : Llvm.Block Instr Terminator :=
  ⟨.block w.lowered.label, w.phis, w.lowered.instrs, w.lowered.terminator⟩

/-- The block was lowered, and is finished in a state of which `declared` keeps
the declarations. -/
def Settled (declared : Declaration → Prop) (b : RoutineBlock) (lb : LoweredBlock) : Prop :=
  ∃ n s, Finished (setting target r typed b n) r.signature b s lb
    ∧ ∀ d : Declaration, s.declarations.get? d.name = some d → declared d

/-- What the lowered blocks of some rows are found under. -/
def doneRows (rows : List Row) : Dict Label LoweredBlock :=
  Dict.ofList (rows.map fun w => (w.lowered.label, w.lowered))

/-- A routine was lowered to rows, which are the blocks of the code apart from
those around them. -/
structure Assembled (l : LoweredRoutine) (rows : List Row) : Prop where
  ret : l.definition.ret = .ofResults r.signature
  params : l.definition.params = params r.signature
  blocks : ∃ init failure, l.definition.blocks = init ++ rows.map Row.code ++ failure
    ∧ (init = [] ∨ init = [initialBlock r.entry])
    ∧ (failure = [] ∨ failure = [tableFailureBlock target.options]
        ∧ (target.options.allowUndefined = false →
            l.declarations.get? Intrinsic.tableFailure.name = some Intrinsic.tableFailure))
  labels : (rows.map fun w => w.block.label).Nodup
  mem : ∀ b, b ∈ r.blocks ↔ ∃ w ∈ rows, w.block = b
  settled : ∀ w ∈ rows, Settled target r typed
    (fun d => l.declarations.get? d.name = some d) w.block w.lowered
  chosen : ∀ w ∈ rows, Lowering.phis map (doneRows rows) w.block = .ok w.phis
  results : ∃ m n, rows.flatMap (fun w => Llvm.results w.lowered.instrs) = temps m n

end

variable {target : Target} {r : Routine} {map : BlockMap RoutineBlock} {typed : Prop}

-- ================================================================ blocks

/-- Where types are looked at, a well typed block can be lowered. -/
theorem lowerable_of_wellTyped {b : RoutineBlock} (hb : b ∈ r.blocks)
    (hr : typed → r.WellTyped) (n : Nat) :
    (setting target r typed b n).Lowerable r.signature b := by
  have hreads : ∀ v ∈ b.reads, (setting target r typed b n).Reads v (.ofTy v.ty) := by
    intro v hv hc
    have hwell := (hr hc).blocks b hb
    exact ⟨rfl, hwell.reads v hv, fun e he u hu => hwell.consistent v hv e he (e.1, u) hu rfl⟩
  refine ⟨rfl, ?_, ?_, ?_, ?_, fun hc => (hr hc).rets⟩
  · intro hc p hp
    have hmem : (p.var.id, p.var.ty) ∈ b.typings :=
      List.mem_append_left _ (List.mem_map.2 ⟨p, hp, rfl⟩)
    exact ⟨hmem, ((hr hc).blocks b hb).binds _ hmem⟩
  · intro st hst
    refine ⟨?_, fun hc => ((hr hc).blocks b hb).stmts st hst, ?_,
      fun hc => ((hr hc).blocks b hb).results st hst, fun _ h => ⟨b, hb, st, hst, h⟩⟩
    · exact fun v hv => hreads v (RoutineBlock.mem_reads_of_stmt hst hv)
    · intro hc e he
      have hmem : e ∈ b.typings :=
        List.mem_append_right _ (List.mem_flatMap.2 ⟨st, hst, he⟩)
      exact ⟨hmem, ((hr hc).blocks b hb).binds e hmem⟩
  · exact fun q v hv => hreads v (RoutineBlock.mem_reads_of_exit hv)
  · exact fun v hv => hreads v (RoutineBlock.mem_reads_of_transfer hv)

/-- The blocks of a routine one after the other: their temporaries are numbered
without a gap, and no declaration is lost or misplaced. -/
theorem settled_of_mapM (hr : typed → r.WellTyped) {bs : List RoutineBlock}
    {ls : List LoweredBlock} {p p' : Progress} (hbs : ∀ b ∈ bs, b ∈ r.blocks)
    (h : Succeeds (bs.mapM (block target r.signature map)) p ls p') :
    p.nextTemp ≤ p'.nextTemp
      ∧ ls.flatMap (fun lb => Llvm.results lb.instrs) = temps p.nextTemp p'.nextTemp
      ∧ (∀ d : Declaration, p.declarations.get? d.name = some d →
          p'.declarations.get? d.name = some d)
      ∧ (p.declarations.Keyed → p'.declarations.Keyed)
      ∧ List.Forall₂
          (Settled target r typed fun d => p'.declarations.get? d.name = some d) bs ls := by
  induction bs generalizing p ls with
  | nil =>
      obtain ⟨rfl, rfl⟩ := succeeds_pure h
      exact ⟨Nat.le_refl _, (temps_self _).symm, fun _ h => h, id, .nil⟩
  | cons b bs ih =>
      rw [List.mapM_cons] at h
      obtain ⟨lb, p₁, hlb, h⟩ := succeeds_bind h
      obtain ⟨ls', p₂, hls, h⟩ := succeeds_bind h
      obtain ⟨rfl, rfl⟩ := succeeds_pure h
      obtain ⟨hle, hresults, hold, hkeyed, hrows⟩ :=
        ih (fun c hc => hbs c (List.mem_cons_of_mem b hc)) hls
      have hlow : (setting target r typed b p.nextTemp).Lowerable r.signature b :=
        lowerable_of_wellTyped (hbs b List.mem_cons_self) hr p.nextTemp
      obtain ⟨s, hfin, hnext, hdecls, hold₁, hkeyed₁⟩ := finished_of_block rfl rfl hlow hlb
      have hle₁ : p.nextTemp ≤ p₁.nextTemp := hnext ▸ hfin.sound.le
      refine ⟨Nat.le_trans hle₁ hle, ?_, fun d hd => hold d (hold₁ d hd), hkeyed ∘ hkeyed₁,
        .cons ?_ hrows⟩
      · rw [List.flatMap_cons, hresults, hfin.instrs, hfin.sound.results, hnext]
        exact temps_append hle₁ hle
      · refine ⟨_, s, hfin, fun d hd => hold d ?_⟩
        rw [← hdecls]
        exact hd

/-- Blocks, what they were lowered to, and their phi variables, side by side. -/
theorem exists_rows {P : RoutineBlock → LoweredBlock → Prop}
    {f : RoutineBlock → Except LoweringError (List Phi)} {bs : List RoutineBlock}
    {ls : List LoweredBlock} {cs : List (List Phi)} (h : List.Forall₂ P bs ls)
    (hcs : bs.mapM f = .ok cs) :
    ∃ rows : List Row, rows.map Row.block = bs ∧ rows.map Row.lowered = ls
      ∧ rows.map Row.code = codeBlocks ls cs
      ∧ ∀ w ∈ rows, P w.block w.lowered ∧ f w.block = .ok w.phis := by
  induction h generalizing cs with
  | nil =>
      obtain rfl : [] = cs := Except.ok.inj hcs
      exact ⟨[], rfl, rfl, rfl, fun _ hw => absurd hw List.not_mem_nil⟩
  | @cons b lb bs ls hP _ ih =>
      rw [List.mapM_cons] at hcs
      obtain ⟨ps, hps, hcs⟩ := ok_of_bind hcs
      obtain ⟨cs', hcs', hcs⟩ := ok_of_bind hcs
      cases hcs
      obtain ⟨rows, rfl, rfl, hcode, hrows⟩ := ih hcs'
      refine ⟨⟨b, lb, ps⟩ :: rows, rfl, rfl, ?_, List.forall_mem_cons.2 ⟨⟨hP, hps⟩, hrows⟩⟩
      rw [List.map_cons, hcode]
      rfl

/-- A routine that is lowered is lowered to rows. -/
theorem assembled_of_succeeds {log log' : Log} {l : LoweredRoutine}
    (h : Succeeds (routine target r) log l log') (hr : typed → r.WellTyped) :
    r.WellFormed ∧ ∃ map rows, Assembled target r map typed l rows := by
  obtain ⟨hcheck, map, p, p', hmap, hbody, -, hdecls⟩ := of_routine h
  have hwf := Routine.wellFormed_of_check hcheck
  obtain ⟨order, ls, q, cs, init, horder, hls, hcs, hinit, hcode, hold, -, hfailure⟩ :=
    of_routineBody hbody
  obtain ⟨hnodup, hall, -⟩ := of_lowerOrder hwf hmap horder
  obtain ⟨-, hresults, -, -, hsettled⟩ := settled_of_mapM hr (fun b hb => (hall b).1 hb) hls
  obtain ⟨rows, rfl, rfl, hrows, hmem⟩ := exists_rows hsettled hcs
  refine ⟨hwf, map, rows, ?_⟩
  have hdone : Dict.ofList ((rows.map Row.lowered).map fun b => (b.label, b)) = doneRows rows := by
    rw [List.map_map]
    rfl
  rw [hdone] at hmem
  refine ⟨?_, ?_, ⟨init, _, by rw [hcode, hrows], of_initBlock hinit, ?_⟩, ?_,
    fun b => (hall b).symm.trans List.mem_map, ?_, fun w hw => (hmem w hw).2, ?_⟩
  · rw [hcode]
  · rw [hcode]
  · by_cases hany : (rows.map Row.block).any endsInTable = true
    · rw [if_pos hany, hdecls]
      exact .inr ⟨rfl, hfailure hany⟩
    · rw [if_neg hany]
      exact .inl rfl
  · rw [List.map_map] at hnodup
    exact hnodup
  · intro w hw
    obtain ⟨n, s, hfin, hd⟩ := (hmem w hw).1
    rw [hdecls]
    exact ⟨n, s, hfin, fun d hs => hold d (hd d hs)⟩
  · rw [List.flatMap_map] at hresults
    exact ⟨_, _, hresults⟩

/-- The declarations of a lowered routine are under their own names. -/
theorem keyed_of_succeeds {log log' : Log} {l : LoweredRoutine}
    (h : Succeeds (routine target r) log l log') : l.declarations.Keyed := by
  obtain ⟨hcheck, map, p, p', hmap, hbody, rfl, hdecls⟩ := of_routine h
  obtain ⟨order, ls, q, cs, init, horder, hls, -, -, -, -, hkeyed, -⟩ := of_routineBody hbody
  have hall := (of_lowerOrder (Routine.wellFormed_of_check hcheck) hmap horder).2.1
  rw [hdecls]
  refine hkeyed ?_
  -- types are not looked at
  refine (@settled_of_mapM target r map False False.elim _ _ _ _ ?_ hls).2.2.2.1
    Declarations.keyed_empty
  exact fun b hb => (hall b).1 hb

-- ================================================================== rows

/-- The locals of chosen phi variables are those of the variables. -/
theorem names_of_mapM {done : Dict Label LoweredBlock} {preds : List Label}
    {qs : List PhiBinding} {ps : List Phi} (h : qs.mapM (phiOf done preds) = .ok ps) :
    ps.map (·.name) = qs.map fun q => .var q.var.id := by
  induction qs generalizing ps with
  | nil =>
      cases h
      rfl
  | cons q qs ih =>
      rw [List.mapM_cons] at h
      obtain ⟨p, hp, h⟩ := ok_of_bind h
      obtain ⟨ps', hps, h⟩ := ok_of_bind h
      cases h
      obtain ⟨es, -, hp⟩ := ok_of_bind hp
      cases hp
      rw [List.map_cons, List.map_cons, ih hps]

/-- The parameters are the arguments, one by one. -/
theorem mem_params {sig : Signature} {i : Nat} {t : Ty} (h : sig.args[i]? = some t) :
    (.ofTy t, .arg i) ∈ params sig := by
  refine List.mem_map.2 ⟨(t, i), ?_, rfl⟩
  exact List.mk_mem_zipIdx_iff_getElem?.2 h

namespace Assembled

variable {l : LoweredRoutine} {rows : List Row} {w : Row}

theorem block_mem (h : Assembled target r map typed l rows) (hw : w ∈ rows) :
    w.block ∈ r.blocks := (h.mem w.block).2 ⟨w, hw, rfl⟩

theorem code_mem (h : Assembled target r map typed l rows) (hw : w ∈ rows) :
    w.code ∈ l.definition.blocks := by
  obtain ⟨init, failure, hblocks, -⟩ := h.blocks
  rw [hblocks]
  exact List.mem_append_left _ (List.mem_append_right _ (List.mem_map_of_mem hw))

theorem label (h : Assembled target r map typed l rows) (hw : w ∈ rows) :
    w.code.label = .block w.block.label := by
  obtain ⟨n, s, hfin, -⟩ := h.settled w hw
  exact congrArg BlockName.block hfin.label

/-- A block of the code is that of a row or one of the two around the rows. -/
theorem of_mem_blocks (h : Assembled target r map typed l rows)
    {b : Llvm.Block Instr Terminator} (hb : b ∈ l.definition.blocks) :
    (∃ w ∈ rows, b = w.code) ∨ b = initialBlock r.entry
      ∨ b = tableFailureBlock target.options ∧ (target.options.allowUndefined = false →
          l.declarations.get? Intrinsic.tableFailure.name = some Intrinsic.tableFailure) := by
  obtain ⟨init, failure, hblocks, hinit, hfailure⟩ := h.blocks
  rw [hblocks, List.mem_append, List.mem_append] at hb
  rcases hb with (hb | hb) | hb
  · rcases hinit with rfl | rfl
    · exact absurd hb List.not_mem_nil
    · exact .inr (.inl (List.mem_singleton.1 hb))
  · obtain ⟨w, hw, rfl⟩ := List.mem_map.1 hb
    exact .inl ⟨w, hw, rfl⟩
  · rcases hfailure with rfl | ⟨rfl, hdeclared⟩
    · exact absurd hb List.not_mem_nil
    · exact .inr (.inr ⟨List.mem_singleton.1 hb, hdeclared⟩)

/-- Only rows have phi variables. -/
theorem exists_row_of_phi (h : Assembled target r map typed l rows)
    {b : Llvm.Block Instr Terminator} (hb : b ∈ l.definition.blocks) {p : Phi} (hp : p ∈ b.phis) :
    ∃ w ∈ rows, b = w.code := by
  rcases h.of_mem_blocks hb with hrow | rfl | ⟨rfl, -⟩
  · exact hrow
  · exact absurd hp List.not_mem_nil
  · exact absurd hp List.not_mem_nil

theorem names (h : Assembled target r map typed l rows) (hw : w ∈ rows) :
    w.phis.map (·.name) = w.block.phis.map fun q => .var q.var.id := by
  rcases of_phis (h.chosen w hw) with ⟨hnil, hps⟩ | ⟨preds, -, hps⟩
  · rw [hnil, hps]
    rfl
  · exact names_of_mapM hps

/-- A phi variable of the code has the operands that the rows at the other ends of
its edges hand out for its register. -/
theorem phi (h : Assembled target r map typed l rows) (hw : w ∈ rows) {p : Phi}
    (hp : p ∈ w.phis) : ∃ q ∈ w.block.phis, p.name = .var q.var.id ∧ p.ty = .ofTy q.var.ty
      ∧ ∀ e ∈ p.incoming, ∃ w' ∈ rows, ∃ x : Typed,
          w'.lowered.exits.get? q.reg.name = some (some (q.var.ty, x))
            ∧ e = (x.operand, .block w'.lowered.label) := by
  rcases of_phis (h.chosen w hw) with ⟨-, hps⟩ | ⟨preds, -, hps⟩
  · rw [hps] at hp
    exact absurd hp List.not_mem_nil
  obtain ⟨q, hq, hphi⟩ := exists_of_mem_mapM hps hp
  obtain ⟨es, hes, hphi⟩ := ok_of_bind hphi
  cases hphi
  refine ⟨q, hq, rfl, rfl, fun e he => ?_⟩
  obtain ⟨pred, -, hop⟩ := exists_of_mem_mapM hes he
  obtain ⟨lb, x, hlb, hx, rfl⟩ := of_phiOperand hop
  rcases Dict.of_get?_insertAll hlb with hmem | hempty
  · obtain ⟨w', hw', hrow⟩ := List.mem_map.1 hmem
    obtain ⟨rfl, rfl⟩ := Prod.mk.inj hrow
    exact ⟨w', hw', x, hx, rfl⟩
  · rw [Dict.get?_empty] at hempty
    exact nomatch hempty

/-- Every phi variable of a block is there in the code. -/
theorem exists_phi (h : Assembled target r map typed l rows) (hw : w ∈ rows) {q : PhiBinding}
    (hq : q ∈ w.block.phis) :
    ∃ p ∈ w.phis, p.name = .var q.var.id ∧ p.ty = .ofTy q.var.ty := by
  rcases of_phis (h.chosen w hw) with ⟨hnil, -⟩ | ⟨preds, -, hps⟩
  · rw [hnil] at hq
    exact absurd hq List.not_mem_nil
  obtain ⟨i, hi⟩ := List.mem_iff_getElem?.1 hq
  obtain ⟨p, hp, hphi⟩ := (ok_of_mapM hps).2 i q hi
  obtain ⟨es, -, hphi⟩ := ok_of_bind hphi
  cases hphi
  exact ⟨_, List.mem_of_getElem? hp, rfl, rfl⟩

/-- What a block starts with are the parameters and its phi variables. -/
theorem of_entry (h : Assembled target r map typed l rows) (hw : w ∈ rows) {n : Nat} {x : Local}
    {t : Llvm.Ty} (hx : (setting target r typed w.block n).Entry x t) :
    (t, x) ∈ l.definition.params ∨ ∃ p ∈ w.phis, p.name = x ∧ p.ty = t := by
  rcases hx with ⟨i, u, hi, rfl, rfl⟩ | ⟨q, hq, rfl, rfl⟩
  · rw [h.params]
    exact .inl (mem_params hi)
  · exact .inr (h.exists_phi hw hq)

end Assembled

end Lowering

end LiftedCode
