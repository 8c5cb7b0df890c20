/-
The simulation of a routine by the code that it is lowered to. The two are at
the same place after every number of blocks (`Agree`), and what the invariant
needs there is that the arguments and the phi variables have their data on
either side (`Ready`).

- Along an edge (`enter_simulates`) the phi variables of the successor take the
  same data. For every edge there is an operand among the incoming ones of a phi
  variable, since the graph records the edge at its end, and the operand is one
  that the predecessor handed out for the register.
- A block (`step_simulates`) is executed on either side as `Stages.simulates`
  says, and its end leads to the same place.
- A run (`routine_simulates`) is one block after the other. The block in front of
  the entry takes one more.
-/
import LiftedCode.Proofs.Lowering.Code
import LiftedCode.Proofs.Llvm.Execution

namespace LiftedCode.Lowering

open Llvm (Typed Operand BlockName Phi Instr Terminator Code Data Frame Linkage
  Intrinsic.tableFailure)

/-- The arguments and the phi variables of a block have their data at its
start. -/
structure Ready (args : List Datum) (b : RoutineBlock) (σ : Store) (ρ : Frame) : Prop where
  args : ∀ i d, args[i]? = some d → ρ (.arg i) = some (.ofDatum d)
  phis : ∀ p ∈ b.phis, ∃ d, σ p.var.id = some d ∧ p.var.ty.admits d = true
    ∧ ρ (.var p.var.id) = some (.ofDatum d)

/-- The execution of a routine and that of its code are at the same place. At a
block, the two sides are related by `P`. -/
inductive Agree (link : Linkage) (r : Routine) (code : Code)
    (P : RoutineBlock → Llvm.Block Instr Terminator → Store → Frame → Prop) :
    Routine.Config → Llvm.Config → Prop where
  | running (b : RoutineBlock) (c : Llvm.Block Instr Terminator) (σ : Store) (ρ : Frame)
      (hb : b ∈ r.blocks) (hc : c ∈ code.blocks) (hl : c.label = .block b.label)
      (h : P b c σ ρ) : Agree link r code P (.running b.label σ) (.at (.block b.label) ρ)
  | returned (slots : List (Option Datum)) (x : Data) (h : Returns slots x) :
      Agree link r code P (.returned slots) (.returned x)
  | left (a : BitVec 64) (ds : List Datum) :
      Agree link r code P (.left a ds) (.returned (link.result a (Data.ofData ds)))
  | outside (ρ : Frame) (h : failureBlock ∈ code.blocks) :
      Agree link r code P .outside (.at .tableFailure ρ)
  | failed : Agree link r code P .failed (.calling Intrinsic.tableFailure.name)

variable {target : Target} {r : Routine} {map : BlockMap RoutineBlock}
  {done : Dict Label LoweredBlock} {link : Linkage} {args : List Datum} {env : Env}

-- ================================================================== edges

/-- The incoming operand for an edge is the one that was chosen for it. -/
theorem find?_incoming {p : PhiBinding} {preds : List Label} {pred : Label}
    {es : List (Operand × BlockName)} (h : preds.mapM (phiOperand done p) = .ok es)
    (hpred : pred ∈ preds) :
    ∃ e, es.find? (fun e => e.2 = .block pred) = some e ∧ phiOperand done p pred = .ok e := by
  induction preds generalizing es with
  | nil => exact absurd hpred List.not_mem_nil
  | cons l preds ih =>
      rw [List.mapM_cons] at h
      obtain ⟨e, he, h⟩ := ok_of_bind h
      obtain ⟨es', hes, h⟩ := ok_of_bind h
      cases h
      have hname : e.2 = .block l := by
        unfold phiOperand at he
        dsimp only at he
        split at he
        case h_1 => contradiction
        case h_2 =>
          obtain ⟨_, -, he⟩ := ok_of_bind he
          cases he
          rfl
      rw [List.find?_cons]
      by_cases hl : l = pred
      · subst hl
        exact ⟨e, by rw [hname]; simp, he⟩
      · have hne : decide (e.2 = .block pred) = false := by
          rw [hname]
          exact decide_eq_false fun hb => hl (BlockName.block.inj hb)
        rw [hne]
        apply ih hes
        rcases List.mem_cons.1 hpred with rfl | hpred
        · exact absurd rfl hl
        · exact hpred

/-- What was chosen for an edge is what the predecessor handed out for the
register. -/
theorem of_phiOperand {p : PhiBinding} {pred : Label} {e : Operand × BlockName}
    (h : phiOperand done p pred = .ok e) : ∃ lb x, done.get? pred = some lb
      ∧ lb.exits.get? p.reg.name = some (some (p.var.ty, x)) ∧ e = (x.operand, .block pred) := by
  unfold phiOperand at h
  dsimp only at h
  split at h
  case h_1 => contradiction
  case h_2 t x hfound =>
    obtain ⟨_, hty, h⟩ := ok_of_bind h
    cases h
    rw [← App.eq_of_expectTy (ok_of_mapError hty)]
    obtain ⟨lb, hlb, hfound⟩ := Option.bind_eq_some_iff.1 hfound
    obtain ⟨exit, hexit, he⟩ := Option.bind_eq_some_iff.1 hfound
    exact ⟨lb, x, hlb, hexit.trans (congrArg some he), rfl⟩

/-- A phi variable with its operands for some edges. -/
def phiOf (done : Dict Label LoweredBlock) (preds : List Label) (p : PhiBinding) :
    Except LoweringError Phi := do
  return ⟨.var p.var.id, .ofTy p.var.ty, ← preds.mapM (phiOperand done p)⟩

/-- The phi variables of a block are chosen one by one, for the edges that the
graph records. -/
theorem of_phis {b : RoutineBlock} {ps : List Phi} (h : phis map done b = .ok ps) :
    (b.phis = [] ∧ ps = []) ∨ ∃ preds, map.predecessors b.label = .ok preds
      ∧ b.phis.mapM (phiOf done preds) = .ok ps := by
  unfold phis at h
  by_cases hempty : b.phis.isEmpty = true
  · rw [if_pos hempty] at h
    cases h
    exact .inl ⟨List.isEmpty_iff.1 hempty, rfl⟩
  rw [if_neg hempty] at h
  obtain ⟨preds, hpreds, h⟩ := ok_of_bind h
  refine .inr ⟨preds, ok_of_mapError hpreds, ?_⟩
  split at h
  case isTrue => contradiction
  case isFalse => exact h

section

variable {b : RoutineBlock} {lb : LoweredBlock} {σ₀ σ : Store} {ρ₀ ρ : Frame}

/-- Phi variables take the same data on either side, on top of anything. All of
them are read where the predecessor is left, and others are not touched. -/
theorem bindPhis_simulates (he : Executed link args env b lb σ₀ ρ₀ σ ρ)
    (hdone : done.get? b.label = some lb) {preds : List Label} (hpred : b.label ∈ preds)
    (σ' : Store) (ρ' : Frame) {qs : List PhiBinding} {ps : List Phi}
    (hn : (qs.map (·.var.id)).Nodup) (h : qs.mapM (phiOf done preds) = .ok ps) :
    ∃ σ₁ ρ₁, (inputs link args).phis b σ σ' qs = .ok σ₁
      ∧ Llvm.bindPhis link (.block b.label) ρ ρ' ps = some ρ₁
      ∧ (∀ i, i ∉ qs.map (·.var.id) → σ₁ i = σ' i ∧ ρ₁ (.var i) = ρ' (.var i))
      ∧ (∀ i, ρ₁ (.arg i) = ρ' (.arg i))
      ∧ ∀ q ∈ qs, ∃ d, σ₁ q.var.id = some d ∧ q.var.ty.admits d = true
          ∧ ρ₁ (.var q.var.id) = some (.ofDatum d) := by
  induction qs generalizing ps σ' ρ' with
  | nil =>
      cases h
      exact ⟨σ', ρ', rfl, rfl, fun _ _ => ⟨rfl, rfl⟩, fun _ => rfl, nofun⟩
  | cons q qs ih =>
      rw [List.mapM_cons] at h
      obtain ⟨p, hp, h⟩ := ok_of_bind h
      obtain ⟨ps', hps, h⟩ := ok_of_bind h
      cases h
      obtain ⟨es, hes, hp⟩ := ok_of_bind hp
      cases hp
      rw [List.map_cons, List.nodup_cons] at hn
      -- the operand on the edge and the datum of the register
      obtain ⟨e, hfind, he'⟩ := find?_incoming hes hpred
      obtain ⟨lb', x, hlb', hx, he'⟩ := of_phiOperand he'
      obtain rfl : lb' = lb := Option.some.inj (hlb'.symm.trans hdone)
      have hex : e.1 = x.operand := congrArg Prod.fst he'
      obtain ⟨v, d, hv, hty, hd, hadm, hxty, hxeval⟩ := he.exits q.reg (q.var.ty, x) hx
      dsimp only at hty hxty hxeval
      have hphi : (inputs link args).phi b σ q = .ok d := by
        rw [Inputs.phi, hv]
        exact hd
      have hop : Typed.eval link ρ ⟨.ofTy q.var.ty, e.1⟩ = some (.ofDatum d) := by
        rw [hex, hty, ← hxty]
        exact hxeval
      obtain ⟨σ₁, ρ₁, hσ, hρ, hother, harg, hbound⟩ :=
        ih (σ'.set q.var.id d) (ρ'.set (.var q.var.id) (.ofDatum d)) hn.2 hps
      refine ⟨σ₁, ρ₁, ?_, ?_, ?_, ?_, ?_⟩
      · rw [Inputs.phis, hphi]
        exact hσ
      · rw [Llvm.bindPhis, hfind]
        show (do
          Llvm.bindPhis link _ ρ (ρ'.set _ (← Typed.eval link ρ ⟨.ofTy q.var.ty, e.1⟩)) ps') = _
        rw [hop]
        exact hρ
      · intro i hi
        rw [List.map_cons, List.mem_cons, not_or] at hi
        rw [(hother i hi.2).1, (hother i hi.2).2]
        exact ⟨Store.set_of_ne hi.1, Frame.set_of_ne fun he => hi.1 (Llvm.Local.var.inj he)⟩
      · intro i
        rw [harg i]
        exact Frame.set_of_ne nofun
      · intro p hp
        rcases List.mem_cons.1 hp with rfl | hp
        · refine ⟨d, ?_, ?_, ?_⟩
          · rw [(hother _ hn.1).1, Store.set_self]
          · rw [hty]
            exact hadm
          · rw [(hother _ hn.1).2, Frame.set_self]
        · exact hbound p hp

end

variable {code : Code} {b : RoutineBlock} {lb : LoweredBlock} {σ₀ σ : Store} {ρ₀ ρ : Frame}

/-- A block of the code is found under its label. -/
theorem Emission.block? (em : Emission target r map done code)
    {c : Llvm.Block Instr Terminator} (hc : c ∈ code.blocks) : code.block? c.label = some c :=
  find?_of_nodup em.labels hc

/-- What is the same on either side at the start of a block. -/
abbrev ReadyAt (args : List Datum) (b : RoutineBlock) (_ : Llvm.Block Instr Terminator)
    (σ : Store) (ρ : Frame) : Prop :=
  Ready args b σ ρ

/-- Control goes on at a successor on either side. -/
theorem enter_simulates (em : Emission target r map done code) (hb : b ∈ r.blocks)
    (he : Executed link args env b lb σ₀ ρ₀ σ ρ) (hdone : done.get? b.label = some lb) {l : Label}
    (hl : l ∈ b.transfer.successors) :
    ∃ c c', r.enter (inputs link args) b σ l = .ok c
      ∧ code.enter link (.block b.label) ρ (.block l) = some c'
      ∧ Agree link r code (ReadyAt args) c c' := by
  obtain ⟨next, hnext, rfl⟩ := em.wellFormed.closed b hb l hl
  obtain ⟨lnext, ps, hem⟩ := em.blocks next hnext
  have hfound := em.block? hem.found
  have hids : (next.phis.map (·.var.id)).Nodup :=
    (List.nodup_append.1 (em.wellFormed.binds_nodup hnext)).1
  -- the phi variables of the successor are bound
  obtain ⟨σ', ρ', hσ, hρ, harg, hphis⟩ : ∃ σ' ρ',
      (inputs link args).phis b σ σ next.phis = .ok σ'
        ∧ Llvm.bindPhis link (.block b.label) ρ ρ ps = some ρ'
        ∧ (∀ i, ρ' (.arg i) = ρ (.arg i))
        ∧ ∀ q ∈ next.phis, ∃ d, σ' q.var.id = some d ∧ q.var.ty.admits d = true
            ∧ ρ' (.var q.var.id) = some (.ofDatum d) := by
    rcases of_phis hem.chosen with ⟨hnil, rfl⟩ | ⟨preds, hpreds, hps⟩
    · rw [hnil]
      exact ⟨σ, ρ, rfl, rfl, fun _ => rfl, nofun⟩
    · obtain ⟨preds', hpreds', hmem⟩ := BlockMap.mem_predecessors em.built hb hl
      obtain rfl : preds' = preds := Except.ok.inj (hpreds'.symm.trans hpreds)
      obtain ⟨σ', ρ', hσ, hρ, -, harg, hbound⟩ :=
        bindPhis_simulates he hdone hmem σ ρ hids hps
      exact ⟨σ', ρ', hσ, hρ, harg, hbound⟩
  refine ⟨.running next.label σ', .at (.block next.label) ρ', ?_, ?_, ?_⟩
  · rw [Routine.enter, em.wellFormed.block? hnext]
    show (do
      return Routine.Config.running next.label (← (inputs link args).phis b σ σ next.phis)) = _
    rw [hσ]
    rfl
  · unfold Llvm.Code.enter
    rw [hfound]
    show (do return Llvm.Config.at _ (← Llvm.bindPhis link (.block b.label) ρ ρ ps)) = _
    rw [hρ]
    rfl
  · refine .running next _ σ' ρ' hnext hem.found rfl ⟨?_, hphis⟩
    intro i d hd
    rw [harg i]
    exact he.kept i d hd

/-- A block is left for the same place on either side. -/
theorem leave_simulates (em : Emission target r map done code) (hb : b ∈ r.blocks)
    (he : Executed link args env b lb σ₀ ρ₀ σ ρ) (hdone : done.get? b.label = some lb)
    (ps : List Phi) :
    ∃ c c', r.leave (inputs link args) b σ = .ok c
      ∧ code.leave link ⟨.block b.label, ps, lb.instrs, lb.terminator⟩ ρ = some c'
      ∧ Agree link r code (ReadyAt args) c c' := by
  have henter := fun l hl => enter_simulates em hb he hdone (l := l) hl
  have hfail : ∀ i ls, b.transfer = .table i ls → failureBlock ∈ code.blocks := by
    intro i ls ht
    apply em.fails b hb
    rw [endsInTable, ht]
  have hleads := he.leads
  unfold Routine.leave Llvm.Code.leave
  dsimp only
  generalize b.transfer = t at hleads henter hfail ⊢
  generalize lb.terminator = u at hleads ⊢
  cases hleads with
  | jump l => exact henter l List.mem_cons_self
  | branch c x p l m hc hx =>
      dsimp only
      rw [hc, hx]
      cases p with
      | true => exact henter l List.mem_cons_self
      | false => exact henter m (List.mem_cons_of_mem l List.mem_cons_self)
  | table i x w n ls hi hx =>
      dsimp only
      rw [hi, hx, ok_bind]
      dsimp only
      rw [if_pos rfl, switchTarget_table]
      cases hget : ls[n.toNat]? with
      | some l => exact henter l (List.mem_of_getElem? hget)
      | none =>
          have hmem := hfail i ls rfl
          refine ⟨.outside, .at .tableFailure ρ, rfl, ?_, .outside ρ hmem⟩
          have hfound : code.block? .tableFailure = some failureBlock := em.block? hmem
          unfold Llvm.Code.enter
          rw [hfound]
          rfl
  | ret vs ds x D hvs hx hD =>
      refine ⟨.returned ds, .returned D, ?_, ?_, .returned ds D hD⟩
      · dsimp only
        rw [hvs]
        rfl
      · dsimp only
        rw [hx]
        rfl
  | tailCall f a t vs ds x hf hvs hx =>
      refine ⟨.left a ds, .returned (link.result a (Data.ofData ds)), ?_, ?_, .left a ds⟩
      · dsimp only
        rw [hf, ok_bind, Datum.toBits_bits, ok_bind, hvs]
        rfl
      · dsimp only
        rw [hx]
        rfl

-- ================================================================ blocks

/-- A block that ends in a transfer goes on. -/
theorem Leads.stops?_eq_none {t : Transfer} {c : Llvm.Block Instr Terminator}
    (h : Leads link args σ ρ t c.terminator) : Llvm.stops? c = none := by
  unfold Llvm.stops?
  split
  case h_1 hterm =>
    rw [hterm] at h
    exact nomatch h
  case h_2 => rfl

/-- One block is executed on either side. -/
theorem step_simulates (em : Emission target r map done code)
    (hblocks : ∀ b ∈ r.blocks, b.WellMade) (hundef : target.options.allowUndefined = false)
    (hargs : Ty.admitsEach r.signature.args args = true) {c : Routine.Config} {c' : Llvm.Config}
    (h : Agree link r code (ReadyAt args) c c') :
    ∃ d d', r.step (inputs link args) c = .ok d ∧ code.step link c' = some d'
      ∧ Agree link r code (ReadyAt args) d d' := by
  cases h with
  | running b c σ ρ hb hc hl hready =>
      obtain ⟨lb, ps, hem⟩ := em.blocks b hb
      obtain ⟨σ', ρ', he⟩ :
          ∃ σ' ρ', Executed link args ⟨target, b.label, r.signature.args⟩ b lb σ ρ σ' ρ' :=
        hem.stages.simulates (hblocks b hb) hundef hargs hready.args hready.phis
      obtain ⟨d, d', hd, hd', hagree⟩ := leave_simulates em hb he hem.handed ps
      refine ⟨d, d', ?_, ?_, hagree⟩
      · rw [Routine.step, em.wellFormed.block? hb]
        show ((inputs link args).stmts σ b.stmts >>= r.leave (inputs link args) b) = _
        rw [he.stmts]
        exact hd
      · have hfound := em.block? hem.found
        have hstops := he.leads.stops?_eq_none (c := ⟨.block b.label, ps, lb.instrs, lb.terminator⟩)
        rw [Llvm.Code.step_at hfound hstops, he.ran]
        exact hd'
  | returned slots x hx => exact ⟨_, _, rfl, rfl, .returned slots x hx⟩
  | left a ds => exact ⟨_, _, rfl, rfl, .left a ds⟩
  | outside ρ hmem =>
      refine ⟨_, _, rfl, ?_, .failed⟩
      have hfound : code.block? .tableFailure = some failureBlock := em.block? hmem
      rw [Llvm.Code.step, hfound]
      rfl
  | failed => exact ⟨_, _, rfl, rfl, .failed⟩

-- ================================================================== runs

/-- The local of an argument has its datum. -/
theorem frame_arg (hcode : code.params = params r.signature)
    (hargs : Ty.admitsEach r.signature.args args = true) {i : Nat} {d : Datum}
    (hd : args[i]? = some d) : code.frame (Data.ofData args) (.arg i) = some (.ofDatum d) := by
  have hfrom : ∀ (ts : List Ty) (ds : List Datum) (o i : Nat),
      Ty.admitsEach ts ds = true → ds[i]? = some d →
      ((((ts.zipIdx o).map fun p => (Llvm.Ty.ofTy p.1, Llvm.Local.arg p.2)).zip
        (Data.ofData ds)).find? fun e => e.1.2 = .arg (o + i)).map (·.2) = some (.ofDatum d) := by
    intro ts
    induction ts with
    | nil =>
        intro ds o i hts hd
        cases ds with
        | nil => exact nomatch hd
        | cons => exact nomatch hts
    | cons t ts ih =>
        intro ds o i hts hd
        cases ds with
        | nil => exact nomatch hd
        | cons e ds =>
            rw [Ty.admitsEach, Bool.and_eq_true] at hts
            rw [List.zipIdx_cons, List.map_cons, Data.ofData, List.zip_cons_cons, List.find?_cons]
            cases i with
            | zero =>
                cases hd
                simp
            | succ i =>
                have hne : decide (Llvm.Local.arg o = .arg (o + (i + 1))) = false := by
                  simp
                dsimp only
                rw [hne, show o + (i + 1) = (o + 1) + i by omega]
                exact ih ds (o + 1) i hts.2 hd
  have h := hfrom r.signature.args args 0 i hargs hd
  rw [Nat.zero_add] at h
  rw [Llvm.Code.frame, hcode]
  exact h

/-- The number of blocks that are executed before the entry. -/
def entrySteps (code : Code) : Nat :=
  if code.blocks.head?.map (·.label) = some .init then 1 else 0

/-- The code comes to the entry with the arguments. -/
theorem start_simulates (em : Emission target r map done code)
    (hargs : Ty.admitsEach r.signature.args args = true) :
    ∃ c', code.execute link (Data.ofData args) (entrySteps code) = some c'
      ∧ Agree link r code (ReadyAt args) (.running r.entry .empty) c' := by
  obtain ⟨entry, hmem, hentry, hphis⟩ := em.wellFormed.entry
  obtain ⟨lb, ps, hem⟩ := em.blocks entry hmem
  have hready : Ready args entry .empty (code.frame (Data.ofData args)) := by
    refine ⟨fun i d hd => frame_arg em.params hargs hd, ?_⟩
    rw [hphis]
    nofun
  rw [← hentry]
  refine ⟨.at (.block entry.label) (code.frame (Data.ofData args)), ?_,
    .running entry _ _ _ hmem hem.found rfl hready⟩
  rcases em.starts with ⟨c, hhead, hlabel⟩ | hhead
  · rw [entrySteps, hhead]
    show code.execute link (Data.ofData args) (if some c.label = some .init then 1 else 0) = _
    rw [hlabel, if_neg nofun, Llvm.Code.execute, hhead, hentry, ← hlabel]
    rfl
  · have hinit : code.block? .init = some (initialBlock r.entry) :=
      em.block? (List.mem_of_mem_head? hhead)
    have hfound := em.block? hem.found
    dsimp only at hfound
    have hnil : ps = [] := by
      rcases of_phis hem.chosen with ⟨-, hps⟩ | ⟨preds, -, hps⟩
      · exact hps
      · rw [hphis] at hps
        exact (Except.ok.inj hps).symm
    subst hnil
    rw [entrySteps, hhead]
    show code.execute link (Data.ofData args) 1 = _
    rw [Llvm.Code.execute, Llvm.Code.execute, hhead]
    show code.step link (.at .init (code.frame (Data.ofData args))) = _
    rw [Llvm.Code.step, hinit]
    show code.enter link .init (code.frame (Data.ofData args)) (.block r.entry) = _
    unfold Llvm.Code.enter
    rw [← hentry, hfound]
    rfl

/-- Any number of blocks are executed on either side, from the entry on. -/
theorem run_simulates (em : Emission target r map done code)
    (hblocks : ∀ b ∈ r.blocks, b.WellMade) (hundef : target.options.allowUndefined = false)
    (hargs : Ty.admitsEach r.signature.args args = true) (n : Nat) :
    ∃ c c', r.run (inputs link args) n = .ok c
      ∧ code.execute link (Data.ofData args) (entrySteps code + n) = some c'
      ∧ Agree link r code (ReadyAt args) c c' := by
  induction n with
  | zero =>
      obtain ⟨c', hc', h⟩ := start_simulates em hargs
      exact ⟨_, c', rfl, hc', h⟩
  | succ n ih =>
      obtain ⟨c, c', hc, hc', h⟩ := ih
      obtain ⟨d, d', hd, hd', h'⟩ := step_simulates em hblocks hundef hargs h
      refine ⟨d, d', ?_, ?_, h'⟩
      · rw [Routine.run, hc]
        exact hd
      · rw [← Nat.add_assoc, Llvm.Code.execute, hc']
        exact hd'

/-- What is related in one way is related in another that follows from it. -/
theorem Agree.imp {P Q : RoutineBlock → Llvm.Block Instr Terminator → Store → Frame → Prop}
    {c : Routine.Config} {c' : Llvm.Config} (h : Agree link r code P c c')
    (hPQ : ∀ b c σ ρ, b ∈ r.blocks → c ∈ code.blocks → c.label = .block b.label →
      P b c σ ρ → Q b c σ ρ) : Agree link r code Q c c' := by
  cases h with
  | running b c σ ρ hb hc hl h => exact .running b c σ ρ hb hc hl (hPQ b c σ ρ hb hc hl h)
  | returned slots x hx => exact .returned slots x hx
  | left a ds => exact .left a ds
  | outside ρ h => exact .outside ρ h
  | failed => exact .failed

/-- The code of a lowered routine simulates the routine. After any number of
blocks both are at the same place: at blocks with one label, in which whatever
the block binds is the same through its operand; back with the same results;
gone on in the same function with the same arguments; or at an index that a
table does not have, whose failure is reported next. -/
theorem routine_simulates {log log' : Log} {lowered : LoweredRoutine}
    (hlower : Succeeds (routine target r) log lowered log')
    (hundef : target.options.allowUndefined = false) (hblocks : ∀ b ∈ r.blocks, b.WellMade)
    (hargs : Ty.admitsEach r.signature.args args = true) (n : Nat) :
    ∃ c c', r.run (inputs link args) n = .ok c
      ∧ Llvm.Code.execute link lowered.definition (Data.ofData args)
          (entrySteps lowered.definition + n) = some c'
      ∧ Agree link r lowered.definition (fun b block σ ρ =>
          SameData link args ⟨target, b.label, r.signature.args⟩ b block.instrs σ ρ) c c' := by
  obtain ⟨map, done, em⟩ := emission_of_succeeds hlower hundef
  obtain ⟨c, c', hc, hc', h⟩ := run_simulates em hblocks hundef hargs n
  refine ⟨c, c', hc, hc', h.imp ?_⟩
  intro b block σ ρ hb hmem hlabel hready
  obtain ⟨lb, ps, hem⟩ := em.blocks b hb
  obtain rfl := eq_of_nodup em.labels hmem hem.found hlabel
  obtain ⟨σ', ρ', he⟩ :
      ∃ σ' ρ', Executed link args ⟨target, b.label, r.signature.args⟩ b lb σ ρ σ' ρ' :=
    hem.stages.simulates (hblocks b hb) hundef hargs hready.args hready.phis
  exact he.same

/-- One less than what is in the register. -/
def oneLess : Assignment Value :=
  ⟨1, .app (.binary .sub 8 (.phi ⟨0, .bits 8⟩) (.bits ⟨8, 1, by decide, by decide, by decide⟩)),
    .bits 8⟩

/-- Whether the count has reached zero. -/
def nothingLeft : Assignment Value :=
  ⟨2, .app (.eq (.assigned oneLess) (.bits ⟨8, 0, by decide, by decide, valueCount_pos _⟩)), .bool⟩

/-- Count down from the argument to zero, which is returned. -/
def countdown : Routine where
  name := "countdown"
  addr := 0
  signature := ⟨[.bits 8], [.bits 8], false⟩
  entry := 0
  blocks := [
    ⟨0, 1, [], [], .jump 16, Dict.ofList [(.gp 0, .value (.arg 0 (.bits 8)))]⟩,
    ⟨16, 1, [⟨⟨0, .bits 8⟩, .gp 0⟩], [.assign oneLess, .assign nothingLeft],
      .branch (.assigned nothingLeft) 32 16, Dict.ofList [(.gp 0, .value (.assigned oneLess))]⟩,
    ⟨32, 1, [⟨⟨3, .bits 8⟩, .gp 0⟩], [], .ret [some (.phi ⟨3, .bits 8⟩)], ∅⟩]

theorem blockMap_countdown : countdown.blockMap
    = .ok ⟨countdown.blocks, Dict.ofList [(0, []), (16, [0, 16]), (32, [16])]⟩ :=
  BlockMap.build_of_pairwise (by decide) rfl rfl rfl

theorem routine_countdown :
    ∃ lowered log, Succeeds (routine default countdown) #[] lowered log := by
  have hok : ((routine default countdown).run.run #[]).1.isOk = true := by
    unfold routine
    rw [blockMap_countdown]
    decide +kernel
  cases hrun : (routine default countdown).run.run #[] with
  | mk result log =>
      rw [hrun] at hok
      cases result with
      | ok lowered => exact ⟨lowered, log, hrun⟩
      | error e => contradiction

theorem wellMade_countdown : ∀ b ∈ countdown.blocks, b.WellMade := by
  intro b hb
  simp only [countdown, List.mem_cons, List.not_mem_nil, or_false] at hb
  rcases hb with rfl | rfl | rfl
  · exact ⟨List.forall_mem_nil _, fun _ ha => absurd ha List.not_mem_nil, by decide⟩
  · refine ⟨?_, ?_, by decide⟩
    · intro c hc
      simp only [List.mem_cons, List.not_mem_nil, or_false] at hc
      rcases hc with rfl | rfl
      · exact ⟨_, rfl, rfl⟩
      · exact ⟨_, rfl, rfl⟩
    · intro a ha
      simp only [List.mem_cons, List.not_mem_nil, or_false, Stmt.assign.injEq] at ha
      rcases ha with rfl | rfl
      · rfl
      · rfl
  · exact ⟨List.forall_mem_nil _, fun _ ha => absurd ha List.not_mem_nil, by decide⟩

/-- Counting down from two takes four blocks, and then the result is zero. -/
theorem routine_simulates_countdown :
    ∃ lowered log x, Succeeds (routine default countdown) #[] lowered log
      ∧ Llvm.Code.execute noLinkage lowered.definition [.bits 8 2#8]
          (entrySteps lowered.definition + 4) = some (.returned x)
      ∧ x.field 0 = some (.bits 8 0#8) := by
  obtain ⟨lowered, log, hlower⟩ := routine_countdown
  obtain ⟨c, c', hc, hc', hagree⟩ :=
    @routine_simulates default countdown noLinkage [.bits 8 2#8] #[] log lowered hlower rfl
      wellMade_countdown rfl 4
  have hrun : countdown.run (inputs noLinkage [.bits 8 2#8]) 4
      = .ok (.returned [some (.bits 8 0#8)]) := rfl
  obtain rfl := Except.ok.inj (hrun.symm.trans hc)
  cases hagree with
  | returned slots x hx => exact ⟨lowered, log, x, hlower, hc', hx 0 _ rfl⟩

end LiftedCode.Lowering
