/-
Lowered routines are in the form in which every local is assigned once. The
arguments, the identifiers of phi variables and the numbers of temporaries are
families of their own, and no member of one is used twice: a routine binds an
identifier once, and the blocks share one sequence of temporaries. What a block
reads, it has defined before, except for parameters; values come into it through
its phi variables only.
-/
import LiftedCode.Proofs.Lowering.Sound.Routine
import Mathlib.Data.List.Nodup
import Mathlib.Data.List.Perm.Basic

namespace LiftedCode.Lowering

open Llvm (Typed Local Operand BlockName Phi Instr Terminator Code InScope)

variable {target : Target} {r : Routine} {map : BlockMap RoutineBlock} {typed : Prop}
  {l : LoweredRoutine} {rows : List Row} {w : Row}

-- ============================================================ definitions

/-- The locals that a row defines. -/
theorem Assembled.locals_code (h : Assembled target r map typed l rows) (hw : w ∈ rows) :
    w.code.locals = w.block.phis.map (fun q => .var q.var.id) ++ Llvm.results w.lowered.instrs :=
  congrArg (· ++ Llvm.results w.lowered.instrs) (h.names hw)

/-- Reporting an index defines nothing. -/
theorem locals_tableFailureBlock (options : Options) : (tableFailureBlock options).locals = [] := by
  unfold tableFailureBlock
  split <;> rfl

/-- The identifiers of phi variables, row by row, are different. -/
theorem Assembled.nodup_phis (h : Assembled target r map typed l rows) (hr : r.WellFormed) :
    (rows.flatMap fun w => w.block.phis.map fun q => Local.var q.var.id).Nodup := by
  have hvar : Function.Injective Local.var := fun _ _ he => Local.var.inj he
  have hbinds : ∀ w ∈ rows, ∀ {x}, x ∈ w.block.phis.map (fun q => Local.var q.var.id) →
      ∃ id ∈ w.block.binds, x = .var id := by
    intro w _ x hx
    obtain ⟨q, hq, rfl⟩ := List.mem_map.1 hx
    exact ⟨_, List.mem_append_left _ (List.mem_map.2 ⟨q, hq, rfl⟩), rfl⟩
  rw [List.nodup_flatMap]
  constructor
  · intro w hw
    have hn : (w.block.phis.map (·.var.id)).Nodup :=
      (List.nodup_append.1 (hr.binds_nodup (h.block_mem hw))).1
    have hmap := hn.map hvar
    rw [List.map_map] at hmap
    exact hmap
  · have hlabels := h.labels
    rw [List.Nodup, List.pairwise_map] at hlabels
    refine hlabels.imp_of_mem fun {v w} hv hw hne => ?_
    intro x hxv hxw
    obtain ⟨i, hi, rfl⟩ := hbinds v hv hxv
    obtain ⟨j, hj, hij⟩ := hbinds w hw hxw
    obtain rfl := Local.var.inj hij
    have hblocks := Llvm.eq_of_nodup_flatMap hr.binds (h.block_mem hv) (h.block_mem hw) hi hj
    exact hne (congrArg _ hblocks)

theorem nodup_temps (m n : Nat) : (temps m n).Nodup :=
  (List.nodup_range' 1).map fun _ _ he => Local.temp.inj he

/-- The parameters are numbered from zero on. -/
theorem Assembled.paramLocals_eq (h : Assembled target r map typed l rows) :
    l.definition.paramLocals = (List.range' 0 r.signature.args.length).map Local.arg := by
  rw [Llvm.Definition.paramLocals, h.params, Lowering.params, List.map_map, ← List.zipIdx_map_snd,
    List.map_map]
  rfl

/-- All that the blocks define, row by row. -/
theorem Assembled.flatMap_locals (h : Assembled target r map typed l rows) :
    l.definition.blocks.flatMap Llvm.Block.locals = rows.flatMap fun w =>
      w.block.phis.map (fun q => Local.var q.var.id) ++ Llvm.results w.lowered.instrs := by
  obtain ⟨init, failure, hblocks, hinit, hfailure⟩ := h.blocks
  have hi : init.flatMap Llvm.Block.locals = [] := by
    rcases hinit with rfl | rfl <;> rfl
  have hf : failure.flatMap Llvm.Block.locals = [] := by
    rcases hfailure with rfl | ⟨rfl, -⟩
    · rfl
    · rw [List.flatMap_singleton, locals_tableFailureBlock]
  rw [hblocks, List.flatMap_append, List.flatMap_append, hi, hf, List.nil_append, List.append_nil,
    List.flatMap_map]
  exact List.flatMap_congr fun w hw => h.locals_code hw

/-- No local is defined twice. -/
theorem Assembled.nodup_locals (h : Assembled target r map typed l rows) (hr : r.WellFormed) :
    (l.definition.locals.map Local.text).Nodup := by
  obtain ⟨m, n, htemps⟩ := h.results
  have hperm : l.definition.locals.Perm ((List.range' 0 r.signature.args.length).map Local.arg
      ++ ((rows.flatMap fun w => w.block.phis.map fun q => Local.var q.var.id) ++ temps m n)) := by
    rw [Llvm.Definition.locals, h.paramLocals_eq, h.flatMap_locals, ← htemps]
    exact (List.flatMap_append_perm rows _ _).symm.append_left _
  -- every local is of one of the three families
  have hargs : ∀ {x}, x ∈ (List.range' 0 r.signature.args.length).map Local.arg →
      ∃ i, x = .arg i := fun hx => by
    obtain ⟨i, -, rfl⟩ := List.mem_map.1 hx
    exact ⟨i, rfl⟩
  have hvars : ∀ {x}, x ∈ (rows.flatMap fun w => w.block.phis.map fun q => Local.var q.var.id) →
      ∃ i, x = .var i := fun hx => by
    obtain ⟨w, -, hx⟩ := List.mem_flatMap.1 hx
    obtain ⟨q, -, rfl⟩ := List.mem_map.1 hx
    exact ⟨q.var.id, rfl⟩
  have htemp : ∀ {x}, x ∈ temps m n → ∃ i, x = .temp i := fun hx => by
    obtain ⟨i, -, rfl⟩ := List.mem_map.1 hx
    exact ⟨i, rfl⟩
  have hfamily : ∀ x ∈ l.definition.locals, ∀ s, x ≠ .named s := by
    intro x hx s
    rw [hperm.mem_iff, List.mem_append, List.mem_append] at hx
    rcases hx with hx | hx | hx
    · obtain ⟨i, rfl⟩ := hargs hx
      nofun
    · obtain ⟨i, rfl⟩ := hvars hx
      nofun
    · obtain ⟨i, rfl⟩ := htemp hx
      nofun
  refine List.Nodup.map_on
    (fun x hx y hy => Local.text_injective (hfamily x hx) (hfamily y hy)) (hperm.nodup_iff.2 ?_)
  refine List.nodup_append.2 ⟨?_, List.nodup_append.2 ⟨h.nodup_phis hr, nodup_temps m n, ?_⟩, ?_⟩
  · exact (List.nodup_range' 1).map fun _ _ he => Local.arg.inj he
  · rintro x hx y hy rfl
    obtain ⟨i, rfl⟩ := hvars hx
    obtain ⟨j, hj⟩ := htemp hy
    exact nomatch hj
  · rintro x hx y hy rfl
    obtain ⟨i, rfl⟩ := hargs hx
    rcases List.mem_append.1 hy with hy | hy
    · obtain ⟨j, hj⟩ := hvars hy
      exact nomatch hj
    · obtain ⟨j, hj⟩ := htemp hy
      exact nomatch hj

-- ================================================================== scope

/-- What is known at the end of a row is a parameter or defined in its block. -/
theorem Assembled.of_knows (h : Assembled target r map typed l rows) (hw : w ∈ rows) {n : Nat}
    {s : State} (hs : w.lowered.instrs = s.instrs.toList) {x : Local}
    (hx : (setting target r typed w.block n).Knows s x) :
    x ∈ l.definition.paramLocals ∨ x ∈ w.code.locals := by
  rcases hx with ⟨t, ht⟩ | hx
  · rcases h.of_entry hw ht with hp | ⟨p, hp, rfl, -⟩
    · exact .inl (List.mem_map.2 ⟨_, hp, rfl⟩)
    · exact .inr (List.mem_append_left _ (List.mem_map.2 ⟨p, hp, rfl⟩))
  · rw [← hs] at hx
    exact .inr (List.mem_append_right _ hx)

/-- The labels of the blocks are different. -/
theorem Assembled.nodup_blocks (h : Assembled target r map typed l rows) :
    (l.definition.blocks.map (·.label)).Nodup := by
  obtain ⟨init, failure, hblocks, hinit, hfailure⟩ := h.blocks
  have hrows : (rows.map Row.code).map (·.label)
      = (rows.map fun w => w.block.label).map BlockName.block := by
    rw [List.map_map, List.map_map]
    exact List.map_congr_left fun w hw => h.label hw
  rw [hblocks, List.map_append, List.map_append, hrows]
  apply nodup_labels h.labels
  · rcases hinit with rfl | rfl
    · exact .inl rfl
    · exact .inr rfl
  · rcases hfailure with rfl | ⟨rfl, -⟩
    · exact .inl rfl
    · exact .inr rfl

theorem Assembled.singleAssignment (h : Assembled target r map typed l rows) (hr : r.WellFormed) :
    l.definition.SingleAssignment where
  labels := h.nodup_blocks
  once := h.nodup_locals hr
  instrs b hb := by
    rcases h.of_mem_blocks hb with ⟨w, hw, rfl⟩ | rfl | ⟨rfl, -⟩
    · obtain ⟨n, s, hfin, -⟩ := h.settled w hw
      have hscope := hfin.sound.inScope
      rw [← hfin.instrs] at hscope
      refine hscope.mono fun x ⟨t, ht⟩ => ?_
      rcases h.of_entry hw ht with hp | ⟨p, hp, rfl, -⟩
      · exact .inl (List.mem_map.2 ⟨_, hp, rfl⟩)
      · exact .inr (List.mem_map.2 ⟨p, hp, rfl⟩)
    · exact trivial
    · unfold tableFailureBlock
      split
      · exact trivial
      · exact ⟨nofun, trivial⟩
  terminators b hb := by
    rcases h.of_mem_blocks hb with ⟨w, hw, rfl⟩ | rfl | ⟨rfl, -⟩
    · obtain ⟨n, s, hfin, -⟩ := h.settled w hw
      exact fun x hx => h.of_knows hw hfin.instrs (hfin.known x hx)
    · exact nofun
    · exact nofun
  phis b hb p hp e he x hx := by
    obtain ⟨w, hw, rfl⟩ := h.exists_row_of_phi hb hp
    obtain ⟨q, -, -, -, hincoming⟩ := h.phi hw hp
    obtain ⟨w', hw', y, hy, rfl⟩ := hincoming e he
    obtain ⟨n, s, hfin, -⟩ := h.settled w' hw'
    have hknown := (hfin.exits q.reg.name q.var.ty y hy).known x hx
    exact (h.of_knows hw' hfin.instrs hknown).imp_right fun hl => ⟨_, h.code_mem hw', rfl, hl⟩

/-- The code of a lowered routine assigns every local once, in front of its uses,
and what one block defines no other block reads. -/
theorem routine_singleAssignment {log log' : Log}
    (h : Succeeds (routine target r) log l log') : l.definition.SingleAssignment
      ∧ ∀ b ∈ l.definition.blocks, ∀ c ∈ l.definition.blocks,
        ∀ x ∈ b.reads, x ∈ c.locals → b = c := by
  obtain ⟨hr, map, rows, hrows⟩ := assembled_of_succeeds h False.elim
  have hd := hrows.singleAssignment hr
  exact ⟨hd, fun b hb c hc x hx hdef => hd.eq_of_reads hb hc hx hdef⟩

/-- The code of the routine that counts down. -/
theorem routine_singleAssignment_countdown : ∃ lowered log,
    Succeeds (routine default countdown) #[] lowered log
      ∧ lowered.definition.SingleAssignment := by
  obtain ⟨lowered, log, h⟩ := routine_countdown
  exact ⟨lowered, log, h, (routine_singleAssignment h).1⟩

end LiftedCode.Lowering
