/-
Lowered routines obey the typing rules of the target language. The rows of a
routine are well typed in their own scopes, which are parts of that of the whole
definition, and what a phi variable is given has the type of the variable.

There is one exception. Where operands have one bit, the carry of an addition
and the bit of a test are cast to the type that they have already, and the
language has no such cast (`routine_unitCast`). It is the only one, and it is
there for every such operation (`routine_wellTyped`).
-/
import LiftedCode.Proofs.Lowering.Sound.Routine

namespace LiftedCode.Lowering

open Llvm (Typed Declaration Scope Instr)

variable {target : Target} {r : Routine} {map : BlockMap RoutineBlock} {typed : Prop}
  {l : LoweredRoutine} {rows : List Row} {w : Row} {declared : Declaration → Prop}

/-- Whether the function is declared for the routine. -/
def LoweredRoutine.Declares (l : LoweredRoutine) (d : Declaration) : Prop :=
  l.declarations.get? d.name = some d

-- ================================================================= scopes

/-- What a row can refer to at its end is part of what the definition has. -/
theorem Assembled.scope_within (h : Assembled target r map typed l rows) (hw : w ∈ rows) {n : Nat}
    {s : State} (hs : w.lowered.instrs = s.instrs.toList)
    (hdeclared : ∀ d : Declaration, s.declarations.get? d.name = some d → declared d) :
    ((setting target r typed w.block n).scope s).Within (l.definition.scope declared) where
  locals x t hx := by
    rcases hx with hx | ⟨op, hop, ht⟩
    · exact (h.of_entry hw hx).imp_right fun hp => ⟨_, h.code_mem hw, .inl hp⟩
    · rw [← hs] at hop
      exact .inr ⟨_, h.code_mem hw, .inr ⟨op, hop, ht⟩⟩
  declared := hdeclared

/-- The block that reports an index calls what is declared for it. -/
theorem wellTyped_tableFailureBlock {options : Options} {Γ : Scope} {i : Instr}
    (hdeclared : options.allowUndefined = false → Γ.declared Llvm.Intrinsic.tableFailure)
    (hi : i ∈ (tableFailureBlock options).instrs) : i.WellTyped Γ := by
  unfold tableFailureBlock at hi
  dsimp only at hi
  split at hi
  case isTrue => exact absurd hi List.not_mem_nil
  case isFalse hu =>
    obtain rfl := List.mem_singleton.1 hi
    exact ⟨.declared _ [] (hdeclared (Bool.eq_false_iff.2 hu)) rfl, nofun⟩

-- =============================================================== routines

theorem Assembled.wellTyped (h : Assembled target r map True l rows) (hr : r.WellTyped) :
    l.definition.WellTyped l.Declares r.CastsUnit where
  instrs b hb i hi := by
    rcases h.of_mem_blocks hb with ⟨w, hw, rfl⟩ | rfl | ⟨rfl, hdeclared⟩
    · obtain ⟨n, s, hfin, hd⟩ := h.settled w hw
      have hwithin := h.scope_within hw (n := n) hfin.instrs hd
      have hi : i ∈ w.lowered.instrs := hi
      rw [hfin.instrs] at hi
      exact (hfin.sound.admitted trivial i hi).imp (·.mono hwithin)
        fun hcast => ⟨hcast.1, hcast.2.mono hwithin⟩
    · exact absurd hi List.not_mem_nil
    · exact .inl (wellTyped_tableFailureBlock hdeclared hi)
  terminators b hb := by
    rcases h.of_mem_blocks hb with ⟨w, hw, rfl⟩ | rfl | ⟨rfl, -⟩
    · obtain ⟨n, s, hfin, hd⟩ := h.settled w hw
      rw [h.ret]
      exact (hfin.wellTyped trivial).mono (h.scope_within hw hfin.instrs hd)
    · exact trivial
    · exact trivial
  phis b hb p hp := by
    obtain ⟨w, hw, rfl⟩ := h.exists_row_of_phi hb hp
    obtain ⟨q, hq, -, hty, hincoming⟩ := h.phi hw hp
    refine ⟨?_, fun e he => ?_⟩
    · have hmem : (q.var.id, q.var.ty) ∈ w.block.typings :=
        List.mem_append_left _ (List.mem_map.2 ⟨q, hq, rfl⟩)
      rw [hty]
      exact Ty.legal_of_lowerable ((hr.blocks w.block (h.block_mem hw)).binds _ hmem)
    · obtain ⟨w', hw', x, hx, rfl⟩ := hincoming e he
      obtain ⟨n, s, hfin, hd⟩ := h.settled w' hw'
      have hsees := hfin.exits q.reg.name q.var.ty x hx
      have hop := (hsees.wellTyped trivial).operand.mono (h.scope_within hw' hfin.instrs hd)
      rw [hsees.ty trivial] at hop
      rw [hty]
      exact hop

/-- A statement that is said to be lowered to a cast of an integer of one bit to
its own type is, and the cast is in the code. -/
theorem Assembled.not_wellTyped (h : Assembled target r map True l rows) (hcasts : r.CastsUnit) :
    ¬l.definition.WellTyped declared False := by
  obtain ⟨b, hb, hcast⟩ := hcasts
  obtain ⟨w, hw, rfl⟩ := (h.mem b).1 hb
  obtain ⟨n, s, hfin, -⟩ := h.settled w hw
  obtain ⟨i, hi, hunit⟩ := hfin.casts trivial hcast
  rw [← hfin.instrs] at hi
  intro hwell
  rcases hwell.instrs w.code (h.code_mem hw) i hi with hi | ⟨hfalse, -⟩
  · exact hunit.not_wellTyped hi
  · exact hfalse

/-- The code of a well typed routine obeys the typing rules of the target
language, apart from the casts that there are for operands of one bit; and there
are such casts whenever the routine has one of the operations that they are for. -/
theorem routine_wellTyped {log log' : Log} (h : Succeeds (routine target r) log l log')
    (hr : r.WellTyped) : l.definition.WellTyped l.Declares r.CastsUnit
      ∧ (r.CastsUnit → ¬l.definition.WellTyped l.Declares False) := by
  obtain ⟨-, map, rows, hrows⟩ := assembled_of_succeeds h fun _ : True => hr
  exact ⟨hrows.wellTyped hr, hrows.not_wellTyped⟩

theorem wellTyped_countdown : countdown.WellTyped where
  blocks b hb := by
    simp only [countdown, List.mem_cons, List.not_mem_nil, or_false] at hb
    rcases hb with rfl | rfl | rfl
    · exact ⟨by simp, by decide, by decide, by decide, by simp⟩
    · refine ⟨?_, by decide, by decide, by decide, by decide⟩
      intro st hst
      simp only [List.mem_cons, List.not_mem_nil, or_false] at hst
      rcases hst with rfl | rfl
      · exact ⟨rfl, by simp [oneLess]⟩
      · exact ⟨rfl, by simp [nothingLeft]⟩
    · exact ⟨by simp, by decide, by decide, by decide, by simp⟩
  rets := by decide

/-- The routine that counts down has no operations on integers of one bit. -/
theorem routine_wellTyped_countdown : countdown.WellTyped ∧ ¬countdown.CastsUnit
    ∧ ∃ lowered log, Succeeds (routine default countdown) #[] lowered log
      ∧ lowered.definition.WellTyped lowered.Declares countdown.CastsUnit := by
  obtain ⟨lowered, log, h⟩ := routine_countdown
  refine ⟨wellTyped_countdown, ?_, lowered, log, h, (routine_wellTyped h wellTyped_countdown).1⟩
  decide

-- =========================================================== the exception

/-- The sum of two bits and a carry. -/
def bitSum : Assignment Value :=
  ⟨0, .app (.carry .adc 1 (.arg 0 (.bits 1)) (.arg 1 (.bits 1)) (.arg 2 .bool)), .bits 1⟩

/-- A routine that returns the sum of two bits and a carry. -/
def addBits : Routine where
  name := "add_bits"
  addr := 0
  signature := ⟨[.bits 1, .bits 1, .bool], [.bits 1], false⟩
  entry := 0
  blocks := [⟨0, 1, [], [.assign bitSum], .ret [some (.assigned bitSum)], ∅⟩]

theorem wellTyped_addBits : addBits.WellTyped where
  blocks b hb := by
    obtain rfl := List.mem_singleton.1 hb
    refine ⟨?_, by decide, by decide, by decide, by decide⟩
    intro st hst
    obtain rfl := List.mem_singleton.1 hst
    exact ⟨rfl, nofun⟩
  rets := by decide

theorem blockMap_addBits :
    addBits.blockMap = .ok ⟨addBits.blocks, Dict.ofList [(0, [])]⟩ :=
  BlockMap.build_of_pairwise (by decide) rfl rfl rfl

theorem routine_addBits : ∃ lowered log, Succeeds (routine default addBits) #[] lowered log
    ∧ lowered.definition.blocks.map (·.instrs) = [[
      .assign (.temp 0) (.binary .add ⟨.int 1, .reg (.arg 0)⟩ (.reg (.arg 1))),
      .assign (.temp 1) (.cast .zext ⟨.int 1, .reg (.arg 2)⟩ (.int 1)),
      .assign (.temp 2) (.binary .add ⟨.int 1, .reg (.temp 0)⟩ (.reg (.temp 1))),
      .assign (.temp 3) (.insertValue ⟨.struct [.int 1], .undef⟩ ⟨.int 1, .reg (.temp 2)⟩ 0)]] := by
  apply exists_succeeds_of_map
  unfold routine
  rw [blockMap_addBits]
  rfl

/-- The carry of a sum of two bits is cast to the type that it has, for which
there is no such cast. -/
theorem routine_unitCast : addBits.WellTyped
    ∧ ∃ lowered log, Succeeds (routine default addBits) #[] lowered log
      ∧ ∃ b ∈ lowered.definition.blocks, ∃ i ∈ b.instrs, ∀ Γ, ¬i.WellTyped Γ := by
  obtain ⟨lowered, log, h, hinstrs⟩ := routine_addBits
  obtain ⟨b, hb, hcode⟩ := List.mem_map.1 (hinstrs ▸ List.mem_singleton_self _)
  have hcast : .assign (.temp 1) (.cast .zext ⟨.int 1, .reg (.arg 2)⟩ (.int 1)) ∈ b.instrs := by
    rw [hcode]
    exact List.mem_cons_of_mem _ List.mem_cons_self
  exact ⟨wellTyped_addBits, lowered, log, h, b, hb, _, hcast,
    fun Γ hwell => absurd hwell.1 (by decide)⟩

end LiftedCode.Lowering
