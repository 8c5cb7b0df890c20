/-
Routines with comments and without. The blocks of a routine are lowered to the same
code but for comments, and its phi variables are chosen from what the blocks hand out,
in which comments have no part (`routine_withoutComments`).

All names in the code are ones that lowering makes up, or are those of functions that
the routine knows (`printable_definition`): a local is a parameter, a variable or a
temporary, since it is assigned somewhere, and what is called is declared.
-/
import LiftedCode.Proofs.Lowering.Comments.Block
import LiftedCode.Proofs.Lowering.Graph
import LiftedCode.Proofs.Lowering.Linked
import LiftedCode.Proofs.Lowering.Options.Routine
import LiftedCode.Proofs.Lowering.SingleAssignment

namespace LiftedCode

open Llvm (Local Operand BlockName Phi Instr Terminator Intrinsic.tableFailure)

/-- The routine and the functions that it reads have unbroken names. -/
structure Routine.Printable (r : Routine) : Prop where
  name : Unbroken r.name
  reads : ∀ b ∈ r.blocks, ∀ v ∈ b.reads, v.Printable

/-- The comments that the statements of the block leave. -/
def RoutineBlock.remarks (b : RoutineBlock) : List String :=
  b.stmts.filterMap (·.remark? b.label)

/-- The texts of all remarks of a routine. -/
def Routine.remarks (r : Routine) : List String := r.blocks.flatMap RoutineBlock.remarks

namespace Lowering

/-- The lowered routine with the instructions of its definition only. -/
def LoweredRoutine.withoutComments (l : LoweredRoutine) : LoweredRoutine :=
  { l with definition := l.definition.withoutComments }

variable {target : Target} {r : Routine} {map : BlockMap RoutineBlock} {sig : Signature}
  {p p' : Progress}

-- ================================================================= blocks

theorem blocks_withoutComments {bs : List RoutineBlock} {ls : List LoweredBlock}
    (hbs : ∀ b ∈ bs, ∀ v ∈ b.reads, v.Printable)
    (h : Succeeds (bs.mapM (block (target.withComments true) sig map)) p ls p') :
    Succeeds (bs.mapM (block (target.withComments false) sig map)) p
        (ls.map LoweredBlock.withoutComments) p'
      ∧ ls.map (fun lb => lb.instrs.filterMap Instr.remark?) = bs.map RoutineBlock.remarks
      ∧ (p.declarations.Printable → p'.declarations.Printable) := by
  induction bs generalizing p ls with
  | nil =>
      obtain ⟨rfl, rfl⟩ := succeeds_pure h
      exact ⟨rfl, rfl, id⟩
  | cons b bs ih =>
      obtain ⟨hb, hbs⟩ := List.forall_mem_cons.1 hbs
      rw [List.mapM_cons] at h
      obtain ⟨lb, p₁, hlb, h⟩ := succeeds_bind h
      obtain ⟨ls', p₂, hls, h⟩ := succeeds_bind h
      obtain ⟨rfl, rfl⟩ := succeeds_pure h
      obtain ⟨hblock, hremark, hname⟩ := block_withoutComments hb hlb
      obtain ⟨hblocks, hremarks, hnames⟩ := ih hbs hls
      refine ⟨?_, congrArg₂ List.cons hremark hremarks, hnames ∘ hname⟩
      rw [List.mapM_cons]
      exact hblock.bind (hblocks.bind rfl)

/-- Comments are not of the essence. -/
theorem LoweredBlock.same_withoutComments (lb : LoweredBlock) :
    SameBlock lb lb.withoutComments where
  label := rfl
  terminator := rfl
  exits := rfl
  instrs := by
    show Llvm.essence lb.instrs = Llvm.essence (lb.instrs.filter (!·.isComment))
    unfold Llvm.essence
    rw [List.filterMap_filter]
    refine List.filterMap_congr fun i _ => ?_
    cases i <;> rfl

theorem codeBlocks_withoutComments (ls : List LoweredBlock) (cs : List (List Phi)) :
    codeBlocks (ls.map LoweredBlock.withoutComments) cs
      = (codeBlocks ls cs).map Llvm.Block.withoutComments := by
  unfold codeBlocks
  rw [List.zip_map_left, List.map_map, List.map_map]
  rfl

theorem filterMap_codeBlocks {ls : List LoweredBlock} {cs : List (List Phi)}
    (h : cs.length = ls.length) :
    (codeBlocks ls cs).flatMap (fun b => b.instrs.filterMap Instr.remark?)
      = (ls.map fun lb => lb.instrs.filterMap Instr.remark?).flatten := by
  induction ls generalizing cs with
  | nil => rfl
  | cons lb ls ih =>
      cases cs with
      | nil => exact nomatch h
      | cons ps cs => exact congrArg (lb.instrs.filterMap Instr.remark? ++ ·) (ih (Nat.succ.inj h))

-- =============================================================== routines

/-- The report of a failure is declared, or not, whatever the code is. -/
theorem reportFailure_whatever {wanted : Bool} {d e : LoweredDefinition}
    (h : Succeeds (reportFailure wanted d) p e p') :
    e = d ∧ (∀ c, Succeeds (reportFailure wanted c) p c p')
      ∧ (p.declarations.Printable → p'.declarations.Printable) := by
  obtain ⟨rfl, ⟨rfl, rfl⟩ | ⟨rfl, ds, log, hdeclare, rfl⟩⟩ := of_reportFailure h
  · exact ⟨rfl, fun _ => rfl, id⟩
  · refine ⟨rfl, fun c => ?_, fun hp => hp.of_declare inferInstance hdeclare⟩
    rw [Succeeds, run_reportFailure_wanted, hdeclare]

/-- The block in front of the entry has no comments. -/
theorem init_withoutComments {entry : Label} {init : List (Llvm.Block Instr Terminator)}
    (h : initBlock map entry = .ok init) : init.map Llvm.Block.withoutComments = init
      ∧ init.flatMap (fun b => b.instrs.filterMap Instr.remark?) = [] := by
  rcases of_initBlock h with rfl | rfl <;> exact ⟨rfl, rfl⟩

/-- Nor has the block for indices that a table does not have. -/
theorem failure_withoutComments (o : Options) (table : Bool) :
    (if table then [tableFailureBlock o] else []).map Llvm.Block.withoutComments
        = (if table then [tableFailureBlock o] else [])
      ∧ (if table then [tableFailureBlock o] else []).flatMap
          (fun b => b.instrs.filterMap Instr.remark?) = [] := by
  unfold tableFailureBlock
  cases table <;> cases o.allowUndefined <;> exact ⟨rfl, rfl⟩

/-- The code of a routine with comments and without. The comments are those of its
blocks. -/
theorem routineBody_withoutComments {d : LoweredDefinition} (hwf : r.WellFormed)
    (hmap : r.blockMap = .ok map) (hr : r.Printable)
    (h : Succeeds (routineBody (target.withComments true) r map) p d p') :
    Succeeds (routineBody (target.withComments false) r map) p d.withoutComments p'
      ∧ d.remarks.Perm r.remarks
      ∧ (p.declarations.Printable → p'.declarations.Printable) := by
  obtain ⟨order, s₁, hrun₁, h⟩ := succeeds_bind h
  obtain ⟨horder, rfl⟩ := succeeds_ofExcept hrun₁
  obtain ⟨ls, s₂, hls, h⟩ := succeeds_bind h
  obtain ⟨chosen, s₃, hrun₂, h⟩ := succeeds_bind h
  obtain ⟨hchosen, rfl⟩ := succeeds_ofExcept hrun₂
  obtain ⟨init, s₄, hrun₃, h⟩ := succeeds_bind h
  obtain ⟨hinit, rfl⟩ := succeeds_ofExcept hrun₃
  obtain ⟨hnodup, hall, -⟩ := of_lowerOrder hwf hmap (ok_of_mapError horder)
  obtain ⟨hblocks, hremarks, hnames⟩ :=
    blocks_withoutComments (fun b hb => hr.reads b ((hall b).1 hb)) hls
  obtain ⟨rfl, hreport, hnames'⟩ := reportFailure_whatever h
  have hphis : phis map (Dict.ofList (ls.map fun b => (b.label, b))) = phis map
      (Dict.ofList ((ls.map LoweredBlock.withoutComments).map fun b => (b.label, b))) := by
    have hsame : List.Forall₂ SameBlock ls (ls.map LoweredBlock.withoutComments) :=
      List.forall₂_map_right_iff.2 (List.forall₂_same.2 fun lb _ => lb.same_withoutComments)
    funext b
    exact phis_eq (exits_insertAll hsame fun _ => rfl) b
  obtain ⟨hinit', hinitRemarks⟩ := init_withoutComments (ok_of_mapError hinit)
  obtain ⟨hfailure, hfailureRemarks⟩ :=
    failure_withoutComments target.options (order.any endsInTable)
  refine ⟨?_, ?_, hnames' ∘ hnames⟩
  · refine Succeeds.bind hrun₁ (hblocks.bind ?_)
    rw [hphis] at hrun₂
    refine Succeeds.bind hrun₂ (Succeeds.bind hrun₃ ?_)
    have hcode : Llvm.Definition.withoutComments ⟨r.name, .ofResults r.signature,
          params r.signature, init ++ codeBlocks ls chosen
            ++ if order.any endsInTable then [tableFailureBlock target.options] else []⟩
        = ⟨r.name, .ofResults r.signature, params r.signature,
            init ++ codeBlocks (ls.map LoweredBlock.withoutComments) chosen
              ++ if order.any endsInTable then [tableFailureBlock target.options] else []⟩ := by
      unfold Llvm.Definition.withoutComments
      simp only [List.map_append, hinit', hfailure, codeBlocks_withoutComments]
    exact hcode ▸ hreport _
  · have hlen : chosen.length = ls.length :=
      (ok_of_mapM hchosen).1.trans (succeeds_mapM hls).1.symm
    have horder : order.Perm r.blocks :=
      (List.perm_ext_iff_of_nodup (.of_map _ hnodup) (.of_map _ hwf.labels)).2 hall
    show List.Perm ((init ++ codeBlocks ls chosen
      ++ if order.any endsInTable then [tableFailureBlock target.options] else []).flatMap
        (fun b => b.instrs.filterMap Instr.remark?)) _
    rw [List.flatMap_append, List.flatMap_append, hinitRemarks, hfailureRemarks,
      filterMap_codeBlocks hlen, hremarks, List.nil_append, List.append_nil, ← List.flatMap_def]
    exact horder.flatMap_right _

variable {l : LoweredRoutine} {log log' : Log}

/-- A routine is lowered without comments to the code that it has with them, but for the
comments. These are the ones of its blocks. -/
theorem routine_withoutComments (hr : r.Printable)
    (h : Succeeds (routine (target.withComments true) r) log l log') :
    Succeeds (routine (target.withComments false) r) log l.withoutComments log'
      ∧ l.definition.remarks.Perm r.remarks
      ∧ l.declarations.Printable := by
  obtain ⟨hcheck, map, -, -, hmap, -⟩ := of_routine h
  rw [Succeeds, run_routine hcheck hmap] at h
  split at h
  case h_2 => cases h
  case h_1 d p hrun =>
    cases h
    obtain ⟨hbody, hremarks, hnames⟩ :=
      routineBody_withoutComments (Routine.wellFormed_of_check hcheck) hmap hr hrun
    have hempty : Declarations.Printable ∅ := fun _ _ h => nomatch h
    refine ⟨?_, hremarks, hnames hempty⟩
    rw [Succeeds, run_routine hcheck hmap, hbody]
    rfl

-- ================================================================= names

/-- Control is passed on to blocks of the code. -/
theorem EndsAs.generated {t : Transfer} {e : Terminator} (h : EndsAs t e) :
    ∀ n ∈ e.labels, n.Generated := by
  have hblock : ∀ l : Label, (BlockName.block l).Generated := fun l _ => nofun
  cases h with
  | jump l => exact List.forall_mem_singleton.2 (hblock l)
  | branch c x l m =>
      exact List.forall_mem_cons.2 ⟨hblock l, List.forall_mem_singleton.2 (hblock m)⟩
  | table i x w ls =>
      refine List.forall_mem_cons.2 ⟨fun _ => nofun, fun n hn => ?_⟩
      rw [map_cases] at hn
      obtain ⟨l, -, rfl⟩ := List.mem_map.1 hn
      exact hblock l
  | ret | tailCall => exact List.forall_mem_nil _

/-- All labels in the code are ones that lowering makes up. -/
theorem generated_of_succeeds (h : Succeeds (routine target r) log l log') :
    ∀ b ∈ l.definition.blocks, b.label.Generated ∧ ∀ n ∈ b.terminator.labels, n.Generated := by
  obtain ⟨map, rows, hlaid⟩ := laid_of_succeeds h
  obtain ⟨init, hinit, hcode⟩ := hlaid.blocks
  intro b hb
  rw [hcode, List.mem_append, List.mem_append] at hb
  rcases hb with (hb | hb) | hb
  · rcases of_initBlock hinit with rfl | rfl
    · exact absurd hb List.not_mem_nil
    · obtain rfl := List.mem_singleton.1 hb
      exact ⟨fun _ => nofun, List.forall_mem_singleton.2 fun _ => nofun⟩
  · obtain ⟨w, hw, rfl⟩ := List.mem_map.1 hb
    exact ⟨fun _ => nofun, (hlaid.ends w hw).generated⟩
  · split at hb
    · obtain rfl := List.mem_singleton.1 hb
      exact ⟨fun _ => nofun, List.forall_mem_nil _⟩
    · exact absurd hb List.not_mem_nil

variable {typed : Prop} {rows : List Row}

/-- All locals in the code are parameters, variables and temporaries. -/
theorem Assembled.unbroken_locals (h : Assembled target r map typed l rows) :
    ∀ x ∈ l.definition.locals, Unbroken x.text := by
  obtain ⟨m, n, htemps⟩ := h.results
  intro x hx
  rw [Llvm.Definition.locals, h.paramLocals_eq, h.flatMap_locals, List.mem_append] at hx
  rcases hx with hx | hx
  · obtain ⟨i, -, rfl⟩ := List.mem_map.1 hx
    exact Unbroken.append_iff.2 ⟨by decide, unbroken_toString i⟩
  · obtain ⟨w, hw, hx⟩ := List.mem_flatMap.1 hx
    rcases List.mem_append.1 hx with hx | hx
    · obtain ⟨q, -, rfl⟩ := List.mem_map.1 hx
      exact Unbroken.append_iff.2 ⟨by decide, unbroken_toString q.var.id⟩
    · have hx : x ∈ temps m n := htemps ▸ List.mem_flatMap.2 ⟨w, hw, hx⟩
      obtain ⟨k, -, rfl⟩ := List.mem_map.1 hx
      exact Unbroken.append_iff.2 ⟨by decide, unbroken_toString k⟩

/-- The names in the code of a routine are unbroken. -/
theorem printable_definition (hr : r.Printable) (h : Succeeds (routine target r) log l log')
    (hds : l.declarations.Printable) : l.definition.Printable := by
  obtain ⟨hwf, map, rows, hrows⟩ := assembled_of_succeeds h False.elim
  have hlinked := hrows.linked
  have hsingle := hrows.singleAssignment hwf
  have hgenerated := generated_of_succeeds h
  have hlocals := hrows.unbroken_locals
  have hparam : ∀ {x}, x ∈ l.definition.paramLocals → Unbroken x.text := fun hx =>
    hlocals _ (List.mem_append_left _ hx)
  have hdefined : ∀ {b x}, b ∈ l.definition.blocks → x ∈ b.locals → Unbroken x.text :=
    fun hb hx => hlocals _ (List.mem_append_right _ (List.mem_flatMap.2 ⟨_, hb, hx⟩))
  have hread : ∀ {b x}, b ∈ l.definition.blocks → x ∈ b.reads → Unbroken x.text := fun hb hx =>
    (hsingle.known_of_reads hb hx).elim hparam (hdefined hb)
  -- a function that is declared has an unbroken name
  have hdeclared : ∀ {f : String},
      (∃ d : Llvm.Declaration, l.declarations.get? d.name = some d ∧ d.name = f) → Unbroken f := by
    rintro f ⟨d, hd, rfl⟩
    exact (hds _ d hd).name
  refine ⟨?_, ?_, fun b hb => (hgenerated b hb).1,
    fun b hb p hp => ⟨?_, fun e he => ⟨⟨?_, ?_⟩, ?_⟩⟩,
    fun b hb i hi => ⟨fun o ho => ⟨?_, ?_⟩, ?_, ?_⟩,
    fun b hb => ⟨fun o ho => ⟨?_, ?_⟩, (hgenerated b hb).2⟩⟩
  · obtain ⟨-, map, p, p', -, hbody, -⟩ := of_routine h
    obtain ⟨_, _, _, _, _, -, -, -, -, hcode, -⟩ := of_routineBody hbody
    rw [hcode]
    exact hr.name
  · exact fun p hp => hparam (List.mem_map_of_mem hp)
  · exact hdefined hb (List.mem_append_left _ (List.mem_map_of_mem hp))
  · exact fun f hf => hdeclared (hlinked.phis b hb p hp e he f hf)
  · intro x hx
    rcases hsingle.phis b hb p hp e he x hx with hx | ⟨c, hc, -, hx⟩
    · exact hparam hx
    · exact hdefined hc hx
  · obtain ⟨w, hw, rfl⟩ := hrows.exists_row_of_phi hb hp
    obtain ⟨q, -, -, -, hincoming⟩ := hrows.phi hw hp
    obtain ⟨w', -, x, -, rfl⟩ := hincoming e he
    exact fun _ => nofun
  · exact fun f hf => hdeclared ((hlinked.instrs b hb i hi).operands o ho f hf)
  · intro x hx
    have hreads : x ∈ i.reads := List.mem_flatMap.2 ⟨o, ho, hx⟩
    exact hread hb (List.mem_append_left _ (List.mem_flatMap.2 ⟨i, hi, hreads⟩))
  · intro x hx
    exact hdefined hb (List.mem_append_right _ (List.mem_flatMap.2 ⟨i, hi, hx⟩))
  · intro k hk
    obtain ⟨d, hd, hmatch⟩ := (hlinked.instrs b hb i hi).call k hk
    exact hdeclared ⟨d, hd, hmatch.name⟩
  · exact fun f hf => hdeclared (hlinked.terminators b hb o ho f hf)
  · intro x hx
    exact hread hb (List.mem_append_right _ (List.mem_flatMap.2 ⟨o, ho, hx⟩))

end Lowering

end LiftedCode
