/-
The code of a lowered routine. For every block of the routine there is the
block that it was lowered to under its label, with its phi variables chosen
from what all blocks hand out, and around these there are the block in front of
the entry and the one for indices that a table does not have (`Emission`).
-/
import LiftedCode.Lowering.Routine
import LiftedCode.Proofs.Lowering.Declarations
import LiftedCode.Proofs.Lowering.Stages
import LiftedCode.Proofs.Routine.Check

namespace LiftedCode.Lowering

open Llvm (Terminator Instr Phi BlockName Code Intrinsic.tableFailure)

/-- A block of a routine was lowered to a block of the code. -/
structure Emitted (target : Target) (r : Routine) (map : BlockMap RoutineBlock)
    (done : Dict Label LoweredBlock) (code : Code) (b : RoutineBlock) (lb : LoweredBlock)
    (ps : List Phi) : Prop where
  stages : Stages target r.signature b lb
  handed : done.get? b.label = some lb
  chosen : phis map done b = .ok ps
  found : ⟨.block b.label, ps, lb.instrs, lb.terminator⟩ ∈ code.blocks

/-- The block in front of an entry that other blocks lead to. -/
def initialBlock (entry : Label) : Llvm.Block Instr Terminator :=
  ⟨.init, [], [], .jump (.block entry)⟩

/-- The block for indices that a table does not have, where the failure is
reported. -/
def failureBlock : Llvm.Block Instr Terminator :=
  ⟨.tableFailure, [], [.call Intrinsic.tableFailure.name []], .unreachable⟩

/-- The blocks of the code that the blocks of the routine were lowered to. -/
def codeBlocks (ls : List LoweredBlock) (cs : List (List Phi)) :
    List (Llvm.Block Instr Terminator) :=
  (ls.zip cs).map fun (b, ps) => ⟨.block b.label, ps, b.instrs, b.terminator⟩

/-- A routine was lowered to code. -/
structure Emission (target : Target) (r : Routine) (map : BlockMap RoutineBlock)
    (done : Dict Label LoweredBlock) (code : Code) : Prop where
  wellFormed : r.WellFormed
  built : r.blockMap = .ok map
  params : code.params = params r.signature
  labels : (code.blocks.map (·.label)).Nodup
  blocks : ∀ b ∈ r.blocks, ∃ lb ps, Emitted target r map done code b lb ps
  starts : (∃ c, code.blocks.head? = some c ∧ c.label = .block r.entry)
    ∨ code.blocks.head? = some (initialBlock r.entry)
  fails : ∀ b ∈ r.blocks, endsInTable b = true → failureBlock ∈ code.blocks

/-- The label of a lowered block is that of the block. -/
theorem Stages.label_eq {target : Target} {sig : Signature} {b : RoutineBlock} {lb : LoweredBlock}
    (st : Stages target sig b lb) : lb.label = b.label := by
  obtain ⟨_, _, _, _, _, _, -, -, hlabel, -⟩ := st
  exact hlabel

variable {target : Target} {r : Routine} {map : BlockMap RoutineBlock}
  {done : Dict Label LoweredBlock}

/-- The order of lowering has every block, each under a label of its own, and
begins with the entry. -/
theorem of_lowerOrder {order : List RoutineBlock} (hr : r.WellFormed)
    (hmap : r.blockMap = .ok map) (h : lowerOrder map r.entry = .ok order) :
    (order.map label).Nodup ∧ (∀ b, b ∈ order ↔ b ∈ r.blocks)
      ∧ ∃ b rest, order = b :: rest ∧ b.label = r.entry := by
  obtain ⟨entry, hentry, h⟩ := ok_of_bind h
  cases h
  obtain ⟨b, hb, hlabel, -⟩ := hr.entry
  have hperm : map.blocks.Perm r.blocks := BlockMap.perm_of_build hmap
  have hget : map.get b.label = .ok b := BlockMap.get_of_build hmap hr.labels hb
  rw [hlabel] at hget
  obtain rfl : b = entry := Except.ok.inj (hget.symm.trans hentry)
  refine ⟨?_, ?_, b, _, rfl, hlabel⟩
  · rw [List.map_cons, List.nodup_cons]
    constructor
    · intro hm
      obtain ⟨c, hc, hcb⟩ := List.mem_map.1 hm
      have hne := (List.mem_filter.1 hc).2
      rw [bne_iff_ne] at hne
      exact hne (hcb.trans hlabel)
    · have hnodup : (map.blocks.map label).Nodup := (hperm.map label).nodup_iff.2 hr.labels
      exact hnodup.sublist (List.filter_sublist.map label)
  · intro c
    constructor
    · intro hc
      rcases List.mem_cons.1 hc with rfl | hc
      · exact hb
      · exact hperm.mem_iff.1 (List.mem_filter.1 hc).1
    · intro hc
      by_cases he : c.label = r.entry
      · obtain rfl : c = b := eq_of_nodup hr.labels hc hb (he.trans hlabel.symm)
        exact List.mem_cons_self
      · refine List.mem_cons_of_mem b (List.mem_filter.2 ⟨hperm.mem_iff.2 hc, ?_⟩)
        exact bne_iff_ne.2 he

/-- The end of the lowering of a routine: the function that reports a failure is declared,
if it is wanted. -/
def reportFailure (wanted : Bool) (code : LoweredDefinition) :
    ExceptT LoweringError (StateM Progress) LoweredDefinition := do
  if wanted then
    let p ← get
    let (result, log) := (p.declarations.declare Intrinsic.tableFailure).run p.log
    set { p with log := log }
    let ds ← ofCheck result
    modify fun p => { p with declarations := ds }
  return code

theorem run_reportFailure_wanted (code : LoweredDefinition) (p : Progress) :
    (reportFailure true code).run.run p
      = match (p.declarations.declare Intrinsic.tableFailure).run p.log with
        | (.ok ds, log) => (.ok code, { p with declarations := ds, log := log })
        | (.error e, log) => (.error e, { p with log := log }) := by
  unfold reportFailure
  rw [if_pos rfl, run_get_bind]
  rcases (p.declarations.declare Intrinsic.tableFailure).run p.log with ⟨_ | _, _⟩ <;> rfl

/-- Whatever the code is, it is what comes out, if the declaration is not refused. -/
theorem of_reportFailure {wanted : Bool} {code code' : LoweredDefinition} {p p' : Progress}
    (h : Succeeds (reportFailure wanted code) p code' p') : code' = code
      ∧ (wanted = false ∧ p' = p ∨ wanted = true ∧ ∃ ds log,
        (p.declarations.declare Intrinsic.tableFailure).run p.log = (.ok ds, log)
          ∧ p' = { p with declarations := ds, log := log }) := by
  cases wanted with
  | false =>
      obtain ⟨rfl, rfl⟩ := succeeds_pure h
      exact ⟨rfl, .inl ⟨rfl, rfl⟩⟩
  | true =>
      rw [Succeeds, run_reportFailure_wanted] at h
      split at h
      case h_1 ds log hdeclare =>
        cases h
        exact ⟨rfl, .inr ⟨rfl, ds, log, hdeclare, rfl⟩⟩
      case h_2 => cases h

/-- What the body of the lowering of a routine puts together. Nothing that the
blocks have declared is lost. -/
theorem of_routineBody {p p' : Progress} {code : Code}
    (h : Succeeds (routineBody target r map) p code p') :
    ∃ order lowered q chosen init, lowerOrder map r.entry = .ok order
      ∧ Succeeds (order.mapM (block target r.signature map)) p lowered q
      ∧ order.mapM (phis map (Dict.ofList (lowered.map fun b => (b.label, b)))) = .ok chosen
      ∧ initBlock map r.entry = .ok init
      ∧ code = ⟨r.name, .ofResults r.signature, params r.signature,
          init ++ codeBlocks lowered chosen
            ++ if order.any endsInTable then [tableFailureBlock target.options] else []⟩
      ∧ (∀ d : Llvm.Declaration, q.declarations.get? d.name = some d →
          p'.declarations.get? d.name = some d)
      ∧ (q.declarations.Keyed → p'.declarations.Keyed)
      ∧ (order.any endsInTable = true → target.options.allowUndefined = false →
          p'.declarations.get? Intrinsic.tableFailure.name = some Intrinsic.tableFailure) := by
  obtain ⟨order, s₁, hrun, h⟩ := succeeds_bind h
  obtain ⟨horder, rfl⟩ := succeeds_ofExcept hrun
  obtain ⟨lowered, s₂, hlowered, h⟩ := succeeds_bind h
  obtain ⟨chosen, s₃, hrun, h⟩ := succeeds_bind h
  obtain ⟨hchosen, rfl⟩ := succeeds_ofExcept hrun
  obtain ⟨init, s₄, hrun, h⟩ := succeeds_bind h
  obtain ⟨hinit, rfl⟩ := succeeds_ofExcept hrun
  refine ⟨order, lowered, s₂, chosen, init, ok_of_mapError horder, hlowered, hchosen,
    ok_of_mapError hinit, ?_⟩
  obtain ⟨rfl, ⟨hwanted, rfl⟩ | ⟨-, ds, log, hdeclare, rfl⟩⟩ := of_reportFailure h
  · refine ⟨rfl, fun _ h => h, id, fun htable hundef => ?_⟩
    rw [htable, hundef] at hwanted
    contradiction
  · obtain ⟨hfailure, hold⟩ := Declarations.of_declare hdeclare
    exact ⟨rfl, fun e => hold e.name e, fun hkeyed => hkeyed.of_declare hdeclare,
      fun _ _ => hfailure⟩

/-- What the blocks of a routine are lowered on top of. -/
def startProgress (r : Routine) (map : BlockMap RoutineBlock) (log : Log) : Progress :=
  ⟨0, ∅, (log.push (.loweringRoutine r.name r.addr)).push (.builtBlockMap map.size)⟩

/-- A routine whose blocks form a graph is lowered as its body is. -/
theorem run_routine (hcheck : r.check = .ok ()) (hmap : r.blockMap = .ok map) (log : Log) :
    (routine target r).run.run log
      = match (routineBody target r map).run.run (startProgress r map log) with
        | (.ok d, p) => (.ok ⟨d, p.declarations⟩, p.log)
        | (.error e, p) => (.error e, p.log) := by
  unfold routine
  rw [hcheck, hmap]
  show (fun out : Except LoweringError LoweredDefinition × Progress =>
    (out.1.map fun d => LoweredRoutine.mk d out.2.declarations, out.2.log))
      ((routineBody target r map).run.run (startProgress r map log)) = _
  rcases (routineBody target r map).run.run (startProgress r map log) with ⟨_ | d, p⟩ <;> rfl

/-- What the lowering of a routine consists of. -/
theorem of_routine {log log' : Log} {lowered : LoweredRoutine}
    (h : Succeeds (routine target r) log lowered log') :
    r.check = .ok () ∧ ∃ map p p', r.blockMap = .ok map
      ∧ Succeeds (routineBody target r map) p lowered.definition p'
      ∧ p = startProgress r map log ∧ lowered.declarations = p'.declarations := by
  obtain ⟨hcheck, map, hmap⟩ : r.check = .ok () ∧ ∃ map, r.blockMap = .ok map := by
    obtain ⟨_, l₁, -, h⟩ := succeeds_bind h
    obtain ⟨_, l₂, hcheck, h⟩ := succeeds_bind h
    obtain ⟨map, l₃, hmap, -⟩ := succeeds_bind h
    exact ⟨ok_of_mapError (succeeds_ofExcept hcheck).1, map,
      ok_of_mapError (succeeds_ofExcept hmap).1⟩
  rw [Succeeds, run_routine hcheck hmap] at h
  split at h
  case h_1 d p' hrun =>
    cases h
    exact ⟨hcheck, map, _, p', hmap, hrun, rfl, rfl⟩
  case h_2 => cases h

/-- The block in front of the entry is there, or it is not needed. -/
theorem of_initBlock {entry : Label} {init : List (Llvm.Block Instr Terminator)}
    (h : initBlock map entry = .ok init) : init = [] ∨ init = [initialBlock entry] := by
  obtain ⟨preds, -, h⟩ := ok_of_bind h
  split at h
  case isTrue => exact .inl (Except.ok.inj h).symm
  case isFalse => exact .inr (Except.ok.inj h).symm

section

variable {order : List RoutineBlock} {ls : List LoweredBlock} {cs : List (List Phi)}
  {s s' : Progress}

/-- Lowered blocks have the labels of the blocks that they are lowered from. -/
theorem labels_lowered (h : Succeeds (order.mapM (block target r.signature map)) s ls s') :
    ls.map (·.label) = order.map label := by
  obtain ⟨hlen, hget⟩ := succeeds_mapM h
  apply List.ext_getElem?
  intro i
  rw [List.getElem?_map, List.getElem?_map]
  cases hi : order[i]? with
  | none => rw [List.getElem?_eq_none (hlen ▸ List.getElem?_eq_none_iff.1 hi)]; rfl
  | some b =>
      obtain ⟨lb, _, _, hlb, hrun⟩ := hget i b hi
      rw [hlb]
      exact congrArg some (stages_of_succeeds target r.signature map hrun).label_eq

theorem labels_codeBlocks (h : cs.length = ls.length) :
    (codeBlocks ls cs).map (·.label) = (ls.map (·.label)).map BlockName.block := by
  induction ls generalizing cs with
  | nil => rfl
  | cons lb ls ih =>
      cases cs with
      | nil => exact nomatch h
      | cons ps cs => exact congrArg (BlockName.block lb.label :: ·) (ih (Nat.succ.inj h))

/-- A lowered block is found under the label of the block. -/
theorem get?_lowered (h : Succeeds (order.mapM (block target r.signature map)) s ls s')
    (hn : (order.map label).Nodup) {lb : LoweredBlock} (hlb : lb ∈ ls) {l : Label}
    (hl : lb.label = l) : (Dict.ofList (ls.map fun b => (b.label, b))).get? l = some lb := by
  refine Dict.get?_ofList ?_ ⟨_, List.mem_map.2 ⟨lb, hlb, rfl⟩, hl⟩
  intro e he hlabel
  obtain ⟨lb', hlb', rfl⟩ := List.mem_map.1 he
  rw [← labels_lowered h] at hn
  exact eq_of_nodup hn hlb' hlb (hlabel.trans hl.symm)

/-- Every block that was lowered is in the code. -/
theorem emitted_of_mem {code : Code}
    (hls : Succeeds (order.mapM (block target r.signature map)) s ls s')
    (hcs : order.mapM (phis map (Dict.ofList (ls.map fun b => (b.label, b)))) = .ok cs)
    (hn : (order.map label).Nodup) (hcode : ∀ c ∈ codeBlocks ls cs, c ∈ code.blocks)
    {b : RoutineBlock} (hb : b ∈ order) :
    ∃ lb ps, Emitted target r map (Dict.ofList (ls.map fun b => (b.label, b))) code b lb ps := by
  obtain ⟨i, hi⟩ := List.mem_iff_getElem?.1 hb
  obtain ⟨lb, s₁, s₂, hlb, hrun⟩ := (succeeds_mapM hls).2 i b hi
  obtain ⟨ps, hps, hphis⟩ := (ok_of_mapM hcs).2 i b hi
  have hst := stages_of_succeeds target r.signature map hrun
  refine ⟨lb, ps, hst, get?_lowered hls hn (List.mem_of_getElem? hlb) hst.label_eq, hphis, ?_⟩
  refine hcode _ (List.mem_map.2 ⟨(lb, ps), ?_, ?_⟩)
  · exact List.mem_of_getElem? (List.getElem?_zip_eq_some.2 ⟨hlb, hps⟩)
  · rw [← hst.label_eq]

/-- The names of blocks are different if their labels are, and the other two
blocks have names of their own. -/
theorem nodup_labels {ns : List Label} (hn : ns.Nodup) {pre post : List BlockName}
    (hpre : pre = [] ∨ pre = [.init]) (hpost : post = [] ∨ post = [.tableFailure]) :
    (pre ++ ns.map BlockName.block ++ post).Nodup := by
  have hblocks : (ns.map BlockName.block).Nodup :=
    List.Pairwise.map _ (fun a b hab he => hab (BlockName.block.inj he)) hn
  rcases hpre with rfl | rfl <;> rcases hpost with rfl | rfl
  all_goals simp [List.nodup_append, hblocks]

end

/-- A routine that is lowered is lowered to code. -/
theorem emission_of_succeeds {log log' : Log} {lowered : LoweredRoutine}
    (h : Succeeds (routine target r) log lowered log')
    (hundef : target.options.allowUndefined = false) :
    ∃ map done, Emission target r map done lowered.definition := by
  obtain ⟨hcheck, map, p, p', hmap, hbody, -⟩ := of_routine h
  have hr := Routine.wellFormed_of_check hcheck
  obtain ⟨order, ls, s', cs, init, horder, hls, hcs, hinit, hcode, -⟩ := of_routineBody hbody
  obtain ⟨hnodup, hall, entry, rest, horder, hentry⟩ := of_lowerOrder hr hmap horder
  have hlabels := labels_lowered hls
  have hlen : cs.length = ls.length := (ok_of_mapM hcs).1.trans (succeeds_mapM hls).1.symm
  have hinit := of_initBlock hinit
  have hfail : tableFailureBlock target.options = failureBlock := by
    rw [tableFailureBlock, hundef]
    rfl
  rw [hfail] at hcode
  have hlsnodup : (ls.map (·.label)).Nodup := by
    rw [hlabels]
    exact hnodup
  refine ⟨map, Dict.ofList (ls.map fun b => (b.label, b)), hr, hmap, ?_, ?_, ?_, ?_, ?_⟩
  · rw [hcode]
  · rw [hcode, List.map_append, List.map_append, labels_codeBlocks hlen]
    apply nodup_labels hlsnodup
    · rcases hinit with rfl | rfl
      · exact .inl rfl
      · exact .inr rfl
    · split
      · exact .inr rfl
      · exact .inl rfl
  · intro b hb
    refine emitted_of_mem hls hcs hnodup ?_ ((hall b).2 hb)
    intro c hc
    rw [hcode]
    exact List.mem_append_left _ (List.mem_append_right _ hc)
  · rw [hcode]
    rcases hinit with rfl | rfl
    · left
      have hfirst := labels_codeBlocks hlen
      rw [hlabels, horder] at hfirst
      cases hcb : codeBlocks ls cs with
      | nil =>
          rw [hcb] at hfirst
          exact nomatch hfirst
      | cons c rest' =>
          rw [hcb] at hfirst
          refine ⟨c, rfl, ?_⟩
          rw [← hentry]
          exact (List.cons.inj hfirst).1
    · exact .inr rfl
  · intro b hb htable
    have hany : order.any endsInTable = true := List.any_eq_true.2 ⟨b, (hall b).2 hb, htable⟩
    rw [hcode, if_pos hany]
    exact List.mem_append_right _ List.mem_cons_self

end LiftedCode.Lowering
