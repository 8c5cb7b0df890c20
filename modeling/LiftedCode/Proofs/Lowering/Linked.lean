/-
Whatever lowered routines refer to is declared. A function gets into code by its
name in a call, and by its address in an operand, which may be one that a phi
variable takes over from another block; a block is in sight of it only where it
has been declared (`Setting.Finds`), and declarations are never lost. The block
that is added for tables comes with a declaration of its own.

An assembly keeps the declarations of all that it takes in, and a module drops
those of what is defined in it only. So a name that code refers to is introduced
by every module that the code is part of.
-/
import LiftedCode.Proofs.Lowering.Assembly

namespace LiftedCode.Lowering

open Llvm (Declaration Intrinsic.tableFailure)

variable {target : Target} {r : Routine} {map : BlockMap RoutineBlock} {typed : Prop}
  {ls : List LoweredRoutine} {l : LoweredRoutine} {m : Assembly} {rows : List Row} {w : Row}

-- ================================================================ code

/-- The report of an index is declared, if there is one. -/
theorem linked_tableFailureBlock {options : Options} {declared : Declaration → Prop}
    (h : options.allowUndefined = false → declared Intrinsic.tableFailure) :
    ∀ i ∈ (tableFailureBlock options).instrs, i.Linked declared := by
  intro i hi
  rw [tableFailureBlock] at hi
  by_cases hundef : options.allowUndefined = true
  · rw [if_pos hundef] at hi
    exact absurd hi List.not_mem_nil
  · rw [if_neg hundef] at hi
    obtain rfl := List.mem_singleton.1 hi
    refine ⟨List.forall_mem_nil _, fun k hk => ⟨_, h (Bool.eq_false_iff.2 hundef), ?_⟩⟩
    obtain rfl := Option.some.inj hk
    exact ⟨rfl, rfl, rfl⟩

theorem Assembled.linked (h : Assembled target r map typed l rows) :
    l.definition.Linked fun d => l.declarations.get? d.name = some d where
  phis b hb p hp e he := by
    obtain ⟨w, hw, rfl⟩ := h.exists_row_of_phi hb hp
    obtain ⟨q, -, -, -, hincoming⟩ := h.phi hw hp
    obtain ⟨w', hw', x, hx, rfl⟩ := hincoming e he
    -- the operand was declared at the end of the block that it comes from
    obtain ⟨n, s, hfin, hold⟩ := h.settled w' hw'
    exact (hfin.exits q.reg.name q.var.ty x hx).finds.functions.mono hold
  instrs b hb i hi := by
    rcases h.of_mem_blocks hb with ⟨w, hw, rfl⟩ | rfl | ⟨rfl, hdeclared⟩
    · obtain ⟨n, s, hfin, hold⟩ := h.settled w hw
      have hi : i ∈ w.lowered.instrs := hi
      rw [hfin.instrs] at hi
      exact (hfin.sound.linked i hi).mono hold
    · exact absurd hi List.not_mem_nil
    · exact linked_tableFailureBlock hdeclared i hi
  terminators b hb := by
    rcases h.of_mem_blocks hb with ⟨w, hw, rfl⟩ | rfl | ⟨rfl, -⟩
    · obtain ⟨n, s, hfin, hold⟩ := h.settled w hw
      exact fun o ho => (hfin.finds o ho).functions.mono hold
    · exact nofun
    · exact nofun

-- ============================================================== modules

/-- What is recorded is introduced by the module, as a definition or as a
declaration. -/
theorem Collects.mem_globals (h : Collects ls m) {d : Declaration} (hd : d ∈ recorded ls) :
    d.name ∈ globals m.finish := by
  by_cases hdef : ∃ l ∈ ls, l.definition.name = d.name
  · refine List.mem_append_left _ (h.perm_names.mem_iff.2 ?_)
    exact List.mem_map.2 hdef
  · refine List.mem_append_right _ (List.mem_map.2 ⟨d, h.mem_declarations.2 ⟨hd, ?_⟩, rfl⟩)
    exact fun l hl hname => hdef ⟨l, hl, hname⟩

/-- Everything that the code of a routine refers to is declared along with it, and
calls of a function by its name are in step with its declaration. A module that
has taken in the code introduces all of these names. -/
theorem routine_linked (h : l.IsCodeOf r) :
    l.definition.Linked (fun d => l.declarations.get? d.name = some d)
      ∧ ∀ ls m, Gathered ls m → l ∈ ls → l.definition ∈ m.finish.definitions
        ∧ ∀ f ∈ l.definition.symbols, f ∈ globals m.finish := by
  obtain ⟨target, log, log', hrun⟩ := h
  obtain ⟨-, map, rows, hrows⟩ := assembled_of_succeeds hrun False.elim
  have hlinked := hrows.linked
  refine ⟨hlinked, fun ls m hm hl => ⟨?_, fun f hf => ?_⟩⟩
  · exact hm.collects.perm_finish.mem_iff.2 (List.mem_map_of_mem hl)
  · obtain ⟨d, hd, rfl⟩ := hlinked.exists_declared hf
    exact hm.collects.mem_globals (mem_recorded.2 ⟨l, hl, Dict.mem_values.2 ⟨_, hd⟩⟩)

/-- Something to call back. -/
def callback : FunctionRef := ⟨"callback", 4096, ⟨[], [], false⟩⟩

/-- Something to register it with. -/
def register : FunctionRef := ⟨"register", 8192, ⟨[.bits 64], [], false⟩⟩

/-- Register the callback, and return where both are. -/
def registers : Routine where
  name := "registers"
  addr := 0
  signature := ⟨[.bits 8], [.bits 64, .bits 64], false⟩
  entry := 0
  blocks := [
    ⟨0, 1, [], [.call ⟨.entry register, register.signature, [.entry callback], []⟩],
      .table (.arg 0 (.bits 8)) [16], Dict.ofList [(.gp 0, .value (.entry callback))]⟩,
    ⟨16, 1, [⟨⟨0, .bits 64⟩, .gp 0⟩], [],
      .ret [some (.phi ⟨0, .bits 64⟩), some (.entry register)], ∅⟩]

theorem blockMap_registers : registers.blockMap
    = .ok ⟨registers.blocks, Dict.ofList [(0, []), (16, [0])]⟩ :=
  BlockMap.build_of_pairwise (by decide) rfl rfl rfl

theorem routine_registers : ∃ l log, Succeeds (routine default registers) #[] l log
    ∧ (l.definition.symbols, l.declarations.values)
      = (["register", "callback", "callback", "register", Intrinsic.tableFailure.name],
        [.ofFunction "callback" callback.signature, .ofFunction "register" register.signature,
          Intrinsic.tableFailure]) := by
  apply exists_succeeds_of_toOption
  unfold routine
  rw [blockMap_registers]
  decide +kernel

/-- A module of a routine that calls a function, takes addresses of two, one of
them through a phi variable, and reports indexes that a table does not have. -/
theorem routine_linked_registers : ∃ l m, Gathered [l] m
    ∧ l.definition.Linked (fun d => l.declarations.get? d.name = some d)
    ∧ l.definition.symbols
      = ["register", "callback", "callback", "register", Intrinsic.tableFailure.name]
    ∧ ∀ f ∈ l.definition.symbols, f ∈ globals m.finish := by
  obtain ⟨l, log, hrun, heq⟩ := routine_registers
  obtain ⟨hsymbols, hdecls⟩ := Prod.mk.inj heq
  have hnc : ¬ Conflict (recorded ([] ++ [l])) := by
    rw [List.nil_append, recorded, List.flatMap_singleton, hdecls]
    decide +kernel
  obtain ⟨m, hm⟩ := Gathered.empty.exists_add hrun hnc
  obtain ⟨hlinked, hmodule⟩ := routine_linked ⟨_, _, _, hrun⟩
  exact ⟨l, m, hm, hlinked, hsymbols, (hmodule _ m hm List.mem_cons_self).2⟩

end LiftedCode.Lowering
