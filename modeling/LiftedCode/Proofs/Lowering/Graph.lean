/-
The graph of a lowered routine is that of the routine. Its blocks are laid out
in one order, the entry first and the others by address, between the block in
front of the entry and the one for indices that no table has. An edge of the
routine is an edge of the code, as often as it is there, and there are no
others but those to and from the two blocks around (`HasGraphOf`).

# The argument

A transfer is lowered to a terminator of its own form (`EndsAs`), and the form
alone decides which edges there are. Where the blocks are is read off the
result of the lowering (`Laid`), and whether the entry needs a block in front
of it off the predecessors that the graph of the routine has recorded.
-/
import LiftedCode.Proofs.Flow.Overlap
import LiftedCode.Proofs.Lowering.Sound.Routine
import Mathlib.Data.List.Count
import Mathlib.Data.List.Nodup

namespace LiftedCode

-- ===================================================== graphs of code

namespace Llvm

/-- The blocks that a terminator names, in order, once per edge. -/
def Terminator.successors : Terminator → List BlockName
  | jump l => [l]
  | branch _ l m => [l, m]
  | switch _ default _ targets => default :: targets.map (·.2)
  | ret _ | unreachable => []

/-- Names of blocks that are not given by name are written differently. -/
theorem BlockName.text_injective {a b : BlockName} (ha : ∀ s, a ≠ .named s)
    (hb : ∀ s, b ≠ .named s) (h : a.text = b.text) : a = b := by
  have hinitial := congrArg (fun s : String => s.toList.head?) h
  cases a with
  | init =>
      cases b with
      | init => rfl
      | block | tableFailure => simp [text, labelText] at hinitial
      | named s => exact absurd rfl (hb s)
  | block l =>
      cases b with
      | block m => rw [labelText_injective h]
      | init | tableFailure => simp [text, labelText] at hinitial
      | named s => exact absurd rfl (hb s)
  | tableFailure =>
      cases b with
      | tableFailure => rfl
      | init | block => simp [text, labelText] at hinitial
      | named s => exact absurd rfl (hb s)
  | named s => exact absurd rfl (ha s)

end Llvm

namespace Routine

/-- An edge leads to the entry. -/
def Reentered (r : Routine) : Prop := ∃ b ∈ r.blocks, r.entry ∈ b.transfer.successors

instance (r : Routine) : Decidable r.Reentered :=
  inferInstanceAs (Decidable (∃ b ∈ r.blocks, r.entry ∈ b.transfer.successors))

/-- Some block ends in a table. -/
def HasTable (r : Routine) : Prop := ∃ b ∈ r.blocks, ∃ i ls, b.transfer = .table i ls

end Routine

namespace Lowering

open Llvm (Typed Instr Terminator BlockName Code)

theorem endsInTable_iff {b : RoutineBlock} :
    endsInTable b = true ↔ ∃ i ls, b.transfer = .table i ls := by
  unfold endsInTable
  cases b.transfer <;> simp

instance (r : Routine) : Decidable r.HasTable :=
  decidable_of_iff (∃ b ∈ r.blocks, endsInTable b = true) <|
    exists_congr fun _ => and_congr_right fun _ => endsInTable_iff

/-- The cases of a switch over an index of `w` bits are the targets of a table.
Targets are counted in 64 bits, and so an index of 64 bits or more has room for
all that there can be. -/
structure Tabulates (w : Nat) (cases : List (Nat × BlockName)) (ls : List Label) : Prop where
  distinct : (cases.map (·.1)).Nodup
  length : cases.length = ls.length
  nth : ∀ (n : Nat) l, ls[n]? = some l → cases[n]? = some (n, BlockName.block l)
  fits : ∀ e ∈ cases, w < 64 ∨ e.1 < Address.limit → e.1 < 2 ^ w
  selects : ∀ i : BitVec w, Llvm.switchTarget i .tableFailure cases =
    match ls[i.toNat]? with
    | some l => BlockName.block l
    | none => .tableFailure

/-- The code has the graph of the routine. -/
structure HasGraphOf (code : Code) (r : Routine) : Prop where
  labels : (code.blocks.map (·.label.text)).Nodup
  /-- The blocks of the routine other than its entry are in order of address,
  and the two blocks around are there only if they are needed. -/
  order : ∃ others : List Label, others.Pairwise (· < ·)
    ∧ (∀ l, l ∈ others ↔ l ≠ r.entry ∧ ∃ b ∈ r.blocks, b.label = l)
    ∧ code.blocks.map (·.label) =
      (if r.Reentered then [.init] else []) ++ (r.entry :: others).map .block
        ++ if r.HasTable then [.tableFailure] else []
  entered : ∃ first rest, code.blocks = first :: rest
    ∧ ∀ b ∈ code.blocks, first.label ∉ b.terminator.successors
  closed : ∀ b ∈ code.blocks, ∀ n ∈ b.terminator.successors, ∃ c ∈ code.blocks, c.label = n
  edges : ∀ u ∈ r.blocks, ∃ b ∈ code.blocks, b.label = .block u.label
    ∧ ∀ l : Label, b.terminator.successors.count (.block l) = u.transfer.successors.count l
  around : ∀ b ∈ code.blocks, (b.label = .init → b.terminator.successors = [.block r.entry])
    ∧ (b.label = .tableFailure → b.terminator.successors = [])
  tables : ∀ u ∈ r.blocks, ∀ i ls, u.transfer = .table i ls → ∃ b ∈ code.blocks,
    ∃ x w cases, b.label = .block u.label ∧ b.terminator = .switch x .tableFailure w cases
  switches : ∀ b ∈ code.blocks, ∀ x n w cases, b.terminator = .switch x n w cases →
    ∃ u ∈ r.blocks, ∃ i ls, b.label = .block u.label ∧ u.transfer = .table i ls
      ∧ i.ty = .bits w ∧ n = .tableFailure ∧ Tabulates w cases ls

-- ======================================================== terminators

/-- A terminator has the form of a transfer. -/
inductive EndsAs : Transfer → Terminator → Prop where
  | jump (l : Label) : EndsAs (.jump l) (.jump (.block l))
  | branch (c : Value) (x : Typed) (l m : Label) :
      EndsAs (.branch c l m) (.branch x (.block l) (.block m))
  | table (i : Value) (x : Typed) (w : Nat) (ls : List Label) (hi : i.ty = .bits w)
      (hls : tableTooLarge w ls.length = false) :
      EndsAs (.table i ls) (.switch x .tableFailure w (ls.zipIdx.map fun e => (e.2, .block e.1)))
  | ret (vs : List (Option Value)) (x : Typed) : EndsAs (.ret vs) (.ret x)
  | tailCall (f : Value) (t : Signature) (vs : List Value) (x : Typed) :
      EndsAs (.tailCall f t vs) (.ret x)

/-- A transfer is lowered to a terminator of its form. -/
theorem endsAs_of_transfer {env : Env} {sig : Signature} {t : Transfer} {e : Terminator}
    {s s' : State} (h : Succeeds (transfer env sig t) s e s') : EndsAs t e := by
  cases t with
  | jump l =>
      obtain ⟨rfl, -⟩ := succeeds_pure h
      exact .jump l
  | branch c l m =>
      obtain ⟨_, _, -, h⟩ := succeeds_bind h
      obtain ⟨x, _, -, h⟩ := succeeds_bind h
      obtain ⟨rfl, -⟩ := succeeds_pure h
      exact .branch c x l m
  | table i ls =>
      obtain ⟨w, _, hcheck, h⟩ := succeeds_bind h
      obtain ⟨hty, -⟩ := succeeds_check hcheck
      obtain ⟨hlarge, h⟩ := succeeds_guard h
      obtain ⟨x, _, -, h⟩ := succeeds_bind h
      obtain ⟨rfl, -⟩ := succeeds_pure h
      exact .table i x w ls (App.eq_of_expectBits hty) (Bool.not_eq_true _ ▸ hlarge)
  | ret vs =>
      obtain ⟨-, h⟩ := succeeds_guard h
      obtain ⟨x, _, -, h⟩ := succeeds_bind h
      obtain ⟨rfl, -⟩ := succeeds_pure h
      exact .ret vs x
  | tailCall f t vs =>
      obtain ⟨-, h⟩ := succeeds_guard h
      obtain ⟨x, _, -, h⟩ := succeeds_bind h
      obtain ⟨rfl, -⟩ := succeeds_pure h
      exact .tailCall f t vs x

/-- The targets of a table are the blocks that its cases lead to. -/
theorem map_cases (ls : List Label) :
    (ls.zipIdx.map fun e => ((e.2, .block e.1) : Nat × BlockName)).map (·.2)
      = ls.map BlockName.block := by
  have hfst := congrArg (List.map BlockName.block) (List.zipIdx_map_fst 0 ls)
  rw [List.map_map] at hfst
  rw [List.map_map]
  exact hfst

/-- The successors of a terminator are those of the transfer, after the block
for indices that a table does not have. -/
theorem EndsAs.successors {t : Transfer} {e : Terminator} (h : EndsAs t e) :
    e.successors = t.successors.map BlockName.block
      ∨ (∃ i ls, t = .table i ls)
        ∧ e.successors = .tableFailure :: t.successors.map BlockName.block := by
  cases h with
  | table i x w ls => exact .inr ⟨⟨i, ls, rfl⟩, congrArg _ (map_cases ls)⟩
  | jump | branch | ret | tailCall => exact .inl rfl

/-- A terminator leads where the transfer leads, or to the failure of a table. -/
theorem EndsAs.of_mem_successors {t : Transfer} {e : Terminator} (h : EndsAs t e)
    {n : BlockName} (hn : n ∈ e.successors) : (∃ l ∈ t.successors, n = .block l)
      ∨ (∃ i ls, t = .table i ls) ∧ n = .tableFailure := by
  have hblock : n ∈ t.successors.map BlockName.block → ∃ l ∈ t.successors, n = .block l :=
    fun hn => (List.mem_map.1 hn).imp fun l hl => ⟨hl.1, hl.2.symm⟩
  rcases h.successors with hs | ⟨htable, hs⟩
  · rw [hs] at hn
    exact .inl (hblock hn)
  · rw [hs] at hn
    rcases List.mem_cons.1 hn with rfl | hn
    · exact .inr ⟨htable, rfl⟩
    · exact .inl (hblock hn)

/-- A terminator has as many edges to a block as the transfer has. -/
theorem EndsAs.count_successors {t : Transfer} {e : Terminator} (h : EndsAs t e) (l : Label) :
    e.successors.count (.block l) = t.successors.count l := by
  have hblock : Function.Injective BlockName.block := fun _ _ he => BlockName.block.inj he
  have hcount := List.count_map_of_injective t.successors BlockName.block hblock l
  rcases h.successors with hs | ⟨-, hs⟩
  · rw [hs, hcount]
  · have hne : BlockName.tableFailure ≠ .block l := nofun
    rw [hs, List.count_cons_of_ne hne, hcount]

/-- A table that is not too large has room for its places in the index. -/
theorem tabulates_of_fits {w : Nat} {ls : List Label} (h : tableTooLarge w ls.length = false) :
    Tabulates w (ls.zipIdx.map fun e => (e.2, .block e.1)) ls where
  distinct := by
    rw [List.map_map]
    exact (List.zipIdx_map_snd 0 ls).symm ▸ List.nodup_range' 1
  length := by rw [List.length_map, List.length_zipIdx]
  nth n l hl := by
    rw [List.getElem?_map, List.getElem?_zipIdx, hl, Nat.zero_add]
    rfl
  fits e he hlimit := by
    obtain ⟨⟨l, n⟩, hmem, rfl⟩ := List.mem_map.1 he
    obtain ⟨-, hn, -⟩ := List.mem_zipIdx hmem
    rw [Nat.zero_add] at hn
    by_cases hw : w < 64
    · rw [tableTooLarge, decide_eq_true hw, Bool.true_and, decide_eq_false_iff_not] at h
      exact Nat.lt_of_lt_of_le hn (Nat.le_of_not_lt h)
    · have hpow : 2 ^ 64 ≤ 2 ^ w := Nat.pow_le_pow_right (by decide) (Nat.le_of_not_lt hw)
      exact Nat.lt_of_lt_of_le (hlimit.resolve_left hw) hpow
  selects i := switchTarget_table i ls

-- ============================================================== layout

/-- The code of a routine is laid out in rows, between the blocks around. -/
structure Laid (target : Target) (r : Routine) (map : BlockMap RoutineBlock) (code : Code)
    (rows : List Row) : Prop where
  wellFormed : r.WellFormed
  built : r.blockMap = .ok map
  order : lowerOrder map r.entry = .ok (rows.map Row.block)
  blocks : ∃ init, initBlock map r.entry = .ok init
    ∧ code.blocks = init ++ rows.map Row.code
        ++ if (rows.map Row.block).any endsInTable then [tableFailureBlock target.options] else []
  named : ∀ w ∈ rows, w.lowered.label = w.block.label
  ends : ∀ w ∈ rows, EndsAs w.block.transfer w.lowered.terminator

variable {target : Target} {r : Routine} {map : BlockMap RoutineBlock} {code : Code}
  {rows : List Row}

/-- Blocks that are lowered one after the other go through the stages. -/
theorem forall₂_stages {sig : Signature} {bs : List RoutineBlock} {ls : List LoweredBlock}
    {p p' : Progress} (h : Succeeds (bs.mapM (block target sig map)) p ls p') :
    List.Forall₂ (Stages target sig) bs ls := by
  obtain ⟨hlen, hget⟩ := succeeds_mapM h
  refine List.forall₂_iff_get.2 ⟨hlen.symm, fun i hi hi' => ?_⟩
  obtain ⟨lb, _, _, hlb, hrun⟩ := hget i bs[i] (List.getElem?_eq_getElem hi)
  obtain rfl : ls[i] = lb := Option.some.inj ((List.getElem?_eq_getElem hi').symm.trans hlb)
  exact stages_of_succeeds target sig map hrun

/-- A routine that is lowered is laid out in rows. -/
theorem laid_of_succeeds {log log' : Log} {l : LoweredRoutine}
    (h : Succeeds (routine target r) log l log') :
    ∃ map rows, Laid target r map l.definition rows := by
  obtain ⟨hcheck, map, p, p', hmap, hbody, -⟩ := of_routine h
  obtain ⟨order, ls, q, cs, init, horder, hls, hcs, hinit, hcode, -⟩ := of_routineBody hbody
  obtain ⟨rows, rfl, rfl, hrows, hmem⟩ := exists_rows (forall₂_stages hls) hcs
  refine ⟨map, rows, Routine.wellFormed_of_check hcheck, hmap, horder, ⟨init, hinit, ?_⟩,
    fun w hw => (hmem w hw).1.label_eq, fun w hw => ?_⟩
  · rw [hcode, hrows]
  · obtain ⟨_, _, _, _, _, _, -, -, -, -, -, -, -, htransfer⟩ := (hmem w hw).1
    exact endsAs_of_transfer htransfer

/-- There is a block in front of the entry if an edge leads to the entry. -/
theorem initBlock_eq (hr : r.WellFormed) (hmap : r.blockMap = .ok map) :
    initBlock map r.entry = .ok (if r.Reentered then [initialBlock r.entry] else []) := by
  obtain ⟨entry, hentry, hlabel, -⟩ := hr.entry
  have hpreds : map.predecessors r.entry
      = .ok (BlockMap.sources (BlockMap.edgesOf map.blocks) r.entry) := by
    rw [← hlabel]
    exact BlockMap.predecessors_of_build hmap hentry
  have hmem : ∀ u, u ∈ BlockMap.sources (BlockMap.edgesOf map.blocks) r.entry
      ↔ ∃ b ∈ r.blocks, b.label = u ∧ r.entry ∈ b.transfer.successors := by
    intro u
    rw [BlockMap.mem_sources, BlockMap.mem_edgesOf]
    exact exists_congr fun b => and_congr_left' (BlockMap.perm_of_build hmap).mem_iff
  have hempty : (BlockMap.sources (BlockMap.edgesOf map.blocks) r.entry).isEmpty = true
      ↔ ¬ r.Reentered := by
    rw [List.isEmpty_iff, List.eq_nil_iff_forall_not_mem]
    constructor
    · rintro h ⟨b, hb, hl⟩
      exact h _ ((hmem _).2 ⟨b, hb, rfl, hl⟩)
    · intro h u hu
      obtain ⟨b, hb, -, hl⟩ := (hmem u).1 hu
      exact h ⟨b, hb, hl⟩
  unfold initBlock
  rw [hpreds, ok_bind]
  by_cases hled : r.Reentered
  · rw [if_neg fun h => hempty.1 h hled, if_pos hled]
    rfl
  · rw [if_pos (hempty.2 hled), if_neg hled]
    rfl

namespace Laid

/-- The rows begin with the entry, and go on by address. -/
theorem labels (h : Laid target r map code rows) : ∃ others : List Label,
    others.Pairwise (· < ·) ∧ (∀ l, l ∈ others ↔ l ≠ r.entry ∧ ∃ b ∈ r.blocks, b.label = l)
      ∧ rows.map (·.block.label) = r.entry :: others := by
  obtain ⟨entry, -, horder⟩ := ok_of_bind h.order
  have horder := (Except.ok.inj horder).symm
  obtain ⟨-, -, b, rest, hfirst, hlabel⟩ := of_lowerOrder h.wellFormed h.built h.order
  obtain rfl : entry = b := (List.cons.inj (horder.symm.trans hfirst)).1
  have hmem : ∀ {b}, b ∈ map.blocks ↔ b ∈ r.blocks := (BlockMap.perm_of_build h.built).mem_iff
  refine ⟨(map.blocks.filter (·.label != r.entry)).map label, ?_, ?_, ?_⟩
  · exact List.pairwise_map.2 ((BlockMap.pairwise_lt_of_build h.built).filter _)
  · intro l
    rw [List.mem_map]
    constructor
    · rintro ⟨b, hb, rfl⟩
      obtain ⟨hb, hne⟩ := List.mem_filter.1 hb
      exact ⟨bne_iff_ne.1 hne, b, hmem.1 hb, rfl⟩
    · rintro ⟨hne, b, hb, rfl⟩
      exact ⟨b, List.mem_filter.2 ⟨hmem.2 hb, bne_iff_ne.2 hne⟩, rfl⟩
  · have hrows : rows.map (·.block.label) = (rows.map Row.block).map label := by
      rw [List.map_map]
      rfl
    rw [hrows, horder, List.map_cons]
    exact congrArg (· :: _) hlabel

/-- The two blocks around are there if they are needed. -/
theorem blocks_eq (h : Laid target r map code rows) : code.blocks
    = (if r.Reentered then [initialBlock r.entry] else []) ++ rows.map Row.code
        ++ if r.HasTable then [tableFailureBlock target.options] else [] := by
  obtain ⟨init, hinit, hblocks⟩ := h.blocks
  have hany : (rows.map Row.block).any endsInTable = true ↔ r.HasTable := by
    rw [List.any_eq_true]
    exact exists_congr fun b =>
      and_congr ((of_lowerOrder h.wellFormed h.built h.order).2.1 b) endsInTable_iff
  rw [initBlock_eq h.wellFormed h.built] at hinit
  obtain rfl := Except.ok.inj hinit
  rw [hblocks]
  simp only [hany]

/-- The labels of the code, in order. -/
theorem map_label (h : Laid target r map code rows) : code.blocks.map (·.label)
    = (if r.Reentered then [.init] else []) ++ (rows.map (·.block.label)).map .block
        ++ if r.HasTable then [.tableFailure] else [] := by
  have hrows : (rows.map Row.code).map (·.label) = (rows.map (·.block.label)).map .block := by
    rw [List.map_map, List.map_map]
    exact List.map_congr_left fun w hw => congrArg BlockName.block (h.named w hw)
  rw [h.blocks_eq, List.map_append, List.map_append, hrows]
  congr 2 <;> split <;> rfl

/-- A block of the code is that of a row or one of the two around. -/
theorem mem_blocks (h : Laid target r map code rows) {b : Llvm.Block Instr Terminator} :
    b ∈ code.blocks ↔ (∃ w ∈ rows, w.code = b) ∨ (r.Reentered ∧ b = initialBlock r.entry)
      ∨ (r.HasTable ∧ b = tableFailureBlock target.options) := by
  rw [h.blocks_eq, List.mem_append, List.mem_append, List.mem_map, List.mem_ite_nil_right,
    List.mem_ite_nil_right, List.mem_singleton, List.mem_singleton, or_right_comm, or_comm]

/-- The block that the block of a row was lowered to. -/
theorem found (h : Laid target r map code rows) {w : Row} (hw : w ∈ rows) :
    w.code ∈ code.blocks ∧ w.code.label = .block w.block.label :=
  ⟨h.mem_blocks.2 (.inl ⟨w, hw, rfl⟩), congrArg BlockName.block (h.named w hw)⟩

/-- Every block of the routine has a row. -/
theorem mem_iff (h : Laid target r map code rows) {b : RoutineBlock} :
    b ∈ r.blocks ↔ ∃ w ∈ rows, w.block = b := by
  rw [← (of_lowerOrder h.wellFormed h.built h.order).2.1 b, List.mem_map]

-- ================================================================ edges

/-- A terminator names blocks of the routine, or the block for indices that a
table does not have. -/
theorem of_mem_successors (h : Laid target r map code rows) {b : Llvm.Block Instr Terminator}
    (hb : b ∈ code.blocks) {n : BlockName} (hn : n ∈ b.terminator.successors) :
    (∃ u ∈ r.blocks, ∃ l ∈ u.transfer.successors, n = .block l)
      ∨ (r.Reentered ∧ n = .block r.entry) ∨ (r.HasTable ∧ n = .tableFailure) := by
  rcases h.mem_blocks.1 hb with ⟨w, hw, rfl⟩ | ⟨hled, rfl⟩ | ⟨-, rfl⟩
  · have hu : w.block ∈ r.blocks := h.mem_iff.2 ⟨w, hw, rfl⟩
    rcases (h.ends w hw).of_mem_successors hn with ⟨l, hl, rfl⟩ | ⟨htable, rfl⟩
    · exact .inl ⟨w.block, hu, l, hl, rfl⟩
    · exact .inr (.inr ⟨⟨w.block, hu, htable⟩, rfl⟩)
  · exact .inr (.inl ⟨hled, List.mem_singleton.1 hn⟩)
  · exact absurd hn List.not_mem_nil

/-- Every edge of the code leads to one of its blocks. -/
theorem closed (h : Laid target r map code rows) {b : Llvm.Block Instr Terminator}
    (hb : b ∈ code.blocks) {n : BlockName} (hn : n ∈ b.terminator.successors) :
    ∃ c ∈ code.blocks, c.label = n := by
  have hrow : ∀ u ∈ r.blocks, ∃ c ∈ code.blocks, c.label = .block u.label := by
    intro u hu
    obtain ⟨w, hw, rfl⟩ := h.mem_iff.1 hu
    exact ⟨w.code, h.found hw⟩
  rcases h.of_mem_successors hb hn with ⟨u, hu, l, hl, rfl⟩ | ⟨-, rfl⟩ | ⟨htable, rfl⟩
  · obtain ⟨c, hc, rfl⟩ := h.wellFormed.closed u hu l hl
    exact hrow c hc
  · obtain ⟨entry, hentry, hlabel, -⟩ := h.wellFormed.entry
    rw [← hlabel]
    exact hrow entry hentry
  · exact ⟨_, h.mem_blocks.2 (.inr (.inr ⟨htable, rfl⟩)), rfl⟩

/-- No edge leads to the block in front of the entry, and where there is none,
no edge leads to the entry. -/
theorem not_mem_successors (h : Laid target r map code rows)
    {b : Llvm.Block Instr Terminator} (hb : b ∈ code.blocks) :
    (if r.Reentered then BlockName.init else .block r.entry) ∉ b.terminator.successors := by
  intro hn
  have hn := h.of_mem_successors hb hn
  split at hn
  case isTrue => rcases hn with ⟨_, _, _, _, hn⟩ | ⟨_, hn⟩ | ⟨_, hn⟩ <;> exact nomatch hn
  case isFalse hled =>
    rcases hn with ⟨u, hu, l, hl, hn⟩ | ⟨hled', -⟩ | ⟨_, hn⟩
    · cases hn
      exact hled ⟨u, hu, hl⟩
    · exact hled hled'
    · exact nomatch hn

/-- The first block is the one in front of the entry, or the entry. -/
theorem exists_first (h : Laid target r map code rows) : ∃ first rest,
    code.blocks = first :: rest
      ∧ first.label = if r.Reentered then BlockName.init else .block r.entry := by
  obtain ⟨others, -, -, hrows⟩ := h.labels
  have hlabels := h.map_label
  rw [hrows] at hlabels
  cases hblocks : code.blocks with
  | nil =>
      rw [hblocks] at hlabels
      split at hlabels <;> exact nomatch hlabels
  | cons first rest =>
      refine ⟨first, rest, rfl, ?_⟩
      rw [hblocks, List.map_cons] at hlabels
      split at hlabels
      case isTrue hled => rw [if_pos hled, (List.cons.inj hlabels).1]
      case isFalse hled => rw [if_neg hled, (List.cons.inj hlabels).1]

/-- The texts of the labels are different, as the labels are. -/
theorem nodup_text (h : Laid target r map code rows) :
    (code.blocks.map (·.label.text)).Nodup := by
  have hrows : (rows.map (·.block.label)).Nodup := by
    have hn := (of_lowerOrder h.wellFormed h.built h.order).1
    rw [List.map_map] at hn
    exact hn
  have hnodup : (code.blocks.map (·.label)).Nodup := by
    rw [h.map_label]
    exact nodup_labels hrows (ite_eq_or_eq _ _ _).symm (ite_eq_or_eq _ _ _).symm
  have hnamed : ∀ n ∈ code.blocks.map (·.label), ∀ s, n ≠ .named s := by
    intro n hn s
    obtain ⟨b, hb, rfl⟩ := List.mem_map.1 hn
    rcases h.mem_blocks.1 hb with ⟨w, hw, rfl⟩ | ⟨-, rfl⟩ | ⟨-, rfl⟩ <;> nofun
  have htext := hnodup.map_on fun a ha b hb =>
    BlockName.text_injective (hnamed a ha) (hnamed b hb)
  rw [List.map_map] at htext
  exact htext

/-- Code that is laid out has the graph of the routine. -/
theorem hasGraphOf (h : Laid target r map code rows) : HasGraphOf code r where
  labels := h.nodup_text
  order := by
    obtain ⟨others, hsorted, hmem, hrows⟩ := h.labels
    refine ⟨others, hsorted, hmem, ?_⟩
    rw [← hrows]
    exact h.map_label
  entered := by
    obtain ⟨first, rest, hblocks, hfirst⟩ := h.exists_first
    refine ⟨first, rest, hblocks, fun b hb => ?_⟩
    rw [hfirst]
    exact h.not_mem_successors hb
  closed b hb n hn := h.closed hb hn
  edges u hu := by
    obtain ⟨w, hw, rfl⟩ := h.mem_iff.1 hu
    obtain ⟨hmem, hlabel⟩ := h.found hw
    exact ⟨w.code, hmem, hlabel, (h.ends w hw).count_successors⟩
  around b hb := by
    rcases h.mem_blocks.1 hb with ⟨w, hw, rfl⟩ | ⟨-, rfl⟩ | ⟨-, rfl⟩
    · exact ⟨nofun, nofun⟩
    · exact ⟨fun _ => rfl, nofun⟩
    · exact ⟨nofun, fun _ => rfl⟩
  tables u hu i ls ht := by
    obtain ⟨w, hw, rfl⟩ := h.mem_iff.1 hu
    obtain ⟨hmem, hlabel⟩ := h.found hw
    have hends := h.ends w hw
    rw [ht] at hends
    generalize hterm : w.lowered.terminator = e at hends
    cases hends with
    | table _ x v => exact ⟨w.code, hmem, x, v, _, hlabel, hterm⟩
  switches b hb x n v cases hterm := by
    rcases h.mem_blocks.1 hb with ⟨w, hw, rfl⟩ | ⟨-, rfl⟩ | ⟨-, rfl⟩
    · have hends := h.ends w hw
      have hterm : w.lowered.terminator = .switch x n v cases := hterm
      rw [hterm] at hends
      generalize ht : w.block.transfer = t at hends
      cases hends with
      | table i _ _ ls hi hls =>
          exact ⟨w.block, h.mem_iff.2 ⟨w, hw, rfl⟩, i, ls, (h.found hw).2, ht, hi, rfl,
            tabulates_of_fits hls⟩
    · exact nomatch hterm
    · exact nomatch hterm

end Laid

/-- The code of a lowered routine has the graph of the routine. -/
theorem routine_graph {log log' : Log} {l : LoweredRoutine}
    (h : Succeeds (routine target r) log l log') : HasGraphOf l.definition r := by
  obtain ⟨map, rows, hlaid⟩ := laid_of_succeeds h
  exact hlaid.hasGraphOf

/-- Go back to the start or on to the end, as the argument says. -/
def dispatch : Routine where
  name := "dispatch"
  addr := 0
  signature := ⟨[.bits 8], [], false⟩
  entry := 0
  blocks := [⟨0, 1, [], [], .table (.arg 0 (.bits 8)) [0, 16, 16], ∅⟩, ⟨16, 1, [], [], .ret [], ∅⟩]

theorem blockMap_dispatch : dispatch.blockMap
    = .ok ⟨dispatch.blocks, Dict.ofList [(0, [0]), (16, [0, 0])]⟩ :=
  BlockMap.build_of_pairwise (by decide) rfl rfl rfl

/-- The code for a table with a target twice, at the entry of the routine. -/
theorem routine_graph_dispatch : ∃ lowered log, Succeeds (routine default dispatch) #[] lowered log
    ∧ HasGraphOf lowered.definition dispatch
    ∧ lowered.definition.blocks.map (·.label) = [.init, .block 0, .block 16, .tableFailure] := by
  have hlabels : ((routine default dispatch).run.run #[]).1.map
      (fun l => l.definition.blocks.map (·.label))
        = .ok [.init, .block 0, .block 16, .tableFailure] := by
    unfold routine
    rw [blockMap_dispatch]
    rfl
  obtain ⟨lowered, log, hrun, hlowered⟩ := exists_succeeds_of_map hlabels
  exact ⟨lowered, log, hrun, routine_graph hrun, hlowered⟩

end Lowering

end LiftedCode
