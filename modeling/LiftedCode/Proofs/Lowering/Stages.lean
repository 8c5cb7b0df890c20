/-
The lowering of a whole block. A block that was lowered went through five
states (`Stages`), and what the stages keep adds up to what the block does: its
statements and its instructions can be executed, whatever it binds stands for
the same, the operands that it hands out stand for the registers, and its end
leads to the same place (`Stages.simulates`).
-/
import LiftedCode.Proofs.Lowering.Transfer

namespace LiftedCode.Lowering

open Llvm (Typed Instr Data Frame Linkage Terminator)

/-- Identifiers of a block and the operands that they are bound to have the same
data once the statements of the block are executed, starting from a store and
from locals. The operands are those that the lowering of the statements leaves
behind, and `is` are the instructions of the block. -/
def SameData (link : Linkage) (args : List Datum) (env : Env) (b : RoutineBlock) (is : List Instr)
    (σ : Store) (ρ : Frame) : Prop :=
  ∃ start s s' σ' ρ', start.values = ∅ ∧ start.instrs = #[]
    ∧ Succeeds (bindPhis b.phis) start () s ∧ Succeeds (b.stmts.forM (stmt env)) s () s'
    ∧ s'.instrs.toList <+: is
    ∧ (inputs link args).stmts σ b.stmts = .ok σ' ∧ Llvm.run link ρ s'.instrs.toList = some ρ'
    ∧ ∀ id ∈ b.binds, ∃ x d, s'.values.get? id = some x ∧ σ' id = some d
        ∧ x.eval link ρ' = some (.ofDatum d)

section

variable (target : Target) (sig : Signature) (map : BlockMap RoutineBlock)

/-- The state in which the lowering of a block starts, after some progress. -/
def blockStart (b : RoutineBlock) (p : Progress) : State :=
  ⟨p.nextTemp, p.declarations, ∅, #[], p.log.push (.loweringBlock b.label)⟩

/-- The lowering of a block is that of its body, on top of what was there. -/
theorem run_block (b : RoutineBlock) (p : Progress) : (block target sig map b).run.run p =
    let out := (blockBody ⟨target, b.label, sig.args⟩ sig map b).run (blockStart b p)
    (out.1, ⟨out.2.nextTemp, out.2.declarations, out.2.log⟩) := rfl

/-- A block that is lowered has a body that is lowered, and the lowering goes on from where
that ends. -/
theorem blockBody_of_succeeds {b : RoutineBlock} {lb : LoweredBlock} {p p' : Progress}
    (h : Succeeds (block target sig map b) p lb p') :
    ∃ s, Succeeds (blockBody ⟨target, b.label, sig.args⟩ sig map b) (blockStart b p) lb s
      ∧ p' = ⟨s.nextTemp, s.declarations, s.log⟩ := by
  rw [Succeeds, run_block] at h
  obtain ⟨hresult, hp'⟩ := Prod.mk.inj h
  exact ⟨_, Prod.ext hresult rfl, hp'.symm⟩

/-- How a block was lowered from a state on: the states between the stages. -/
structure Staged (b : RoutineBlock) (lb : LoweredBlock) (start s₁ s₂ s₃ s₄ : State)
    (wanted : List Register) : Prop where
  label : lb.label = b.label
  instrs : lb.instrs = s₄.instrs.toList
  asked : wantedRegisters map b = .ok wanted
  phis : Succeeds (bindPhis b.phis) start () s₁
  stmts : Succeeds (b.stmts.forM (stmt ⟨target, b.label, sig.args⟩)) s₁ () s₂
  exits : Succeeds (exitOperands ⟨target, b.label, sig.args⟩ b.exits wanted ∅) s₂ lb.exits s₃
  transfer : Succeeds (transfer ⟨target, b.label, sig.args⟩ sig b.transfer) s₃ lb.terminator s₄

/-- A block that is lowered goes through stages from where it started, and the lowering
goes on from where the last one ends. -/
theorem staged_of_succeeds {b : RoutineBlock} {lb : LoweredBlock} {p p' : Progress}
    (h : Succeeds (block target sig map b) p lb p') :
    ∃ s₁ s₂ s₃ s₄ wanted, Staged target sig map b lb (blockStart b p) s₁ s₂ s₃ s₄ wanted
      ∧ p' = ⟨s₄.nextTemp, s₄.declarations, s₄.log⟩ := by
  obtain ⟨s', hbody, rfl⟩ := blockBody_of_succeeds target sig map h
  obtain ⟨_, s₁, h₁, h⟩ := succeeds_bind hbody
  obtain ⟨_, s₂, h₂, h⟩ := succeeds_bind h
  obtain ⟨wanted, s₂', hcheck, h⟩ := succeeds_bind h
  obtain ⟨hwanted, rfl⟩ := succeeds_check hcheck
  obtain ⟨exits, s₃, h₃, h⟩ := succeeds_bind h
  obtain ⟨term, s₄, h₄, h⟩ := succeeds_bind h
  obtain ⟨r, s₅, hget, h⟩ := succeeds_bind h
  obtain ⟨rfl, rfl⟩ := succeeds_get hget
  obtain ⟨rfl, rfl⟩ := succeeds_pure h
  exact ⟨s₁, s₂, s₃, s₄, wanted, ⟨rfl, rfl, hwanted, h₁, h₂, h₃, h₄⟩, rfl⟩

/-- How a block was lowered, wherever it started: the states between the stages. -/
def Stages (b : RoutineBlock) (lb : LoweredBlock) : Prop :=
  ∃ start s₁ s₂ s₃ s₄ wanted,
    start.values = ∅ ∧ start.instrs = #[] ∧ lb.label = b.label ∧ lb.instrs = s₄.instrs.toList
      ∧ Succeeds (bindPhis b.phis) start () s₁
      ∧ Succeeds (b.stmts.forM (stmt ⟨target, b.label, sig.args⟩)) s₁ () s₂
      ∧ Succeeds (exitOperands ⟨target, b.label, sig.args⟩ b.exits wanted ∅) s₂ lb.exits s₃
      ∧ Succeeds (transfer ⟨target, b.label, sig.args⟩ sig b.transfer) s₃ lb.terminator s₄

/-- A block that is lowered goes through the stages. -/
theorem stages_of_succeeds {b : RoutineBlock} {lb : LoweredBlock} {p p' : Progress}
    (h : Succeeds (block target sig map b) p lb p') : Stages target sig b lb := by
  obtain ⟨s₁, s₂, s₃, s₄, wanted, hs, -⟩ := staged_of_succeeds target sig map h
  exact ⟨_, s₁, s₂, s₃, s₄, wanted, rfl, rfl, hs.label, hs.instrs, hs.phis, hs.stmts, hs.exits,
    hs.transfer⟩

end

/-- A block was executed on either side, from `σ` and `ρ` to `σ'` and `ρ'`. -/
structure Executed (link : Linkage) (args : List Datum) (env : Env) (b : RoutineBlock)
    (lb : LoweredBlock) (σ : Store) (ρ : Frame) (σ' : Store) (ρ' : Frame) : Prop where
  stmts : (inputs link args).stmts σ b.stmts = .ok σ'
  ran : Llvm.run link ρ lb.instrs = some ρ'
  same : SameData link args env b lb.instrs σ ρ
  kept : ∀ i d, args[i]? = some d → ρ' (.arg i) = some (.ofDatum d)
  exits : ∀ r e, lb.exits.get? r.name = some (some e) → ∃ v d, b.exits.get? r = some (.value v)
    ∧ e.1 = v.ty ∧ (inputs link args).value σ' v = .ok d ∧ v.ty.admits d = true
    ∧ e.2.ty = .ofTy v.ty ∧ e.2.eval link ρ' = some (.ofDatum d)
  leads : Leads link args σ' ρ' b.transfer lb.terminator

/-- A lowered block does what the block does, wherever the arguments and the phi
variables have their data. -/
theorem Stages.simulates {target : Target} {sig : Signature} {b : RoutineBlock} {lb : LoweredBlock}
    {link : Linkage} {args : List Datum} {σ : Store} {ρ : Frame} (st : Stages target sig b lb)
    (hb : b.WellMade) (hundef : target.options.allowUndefined = false)
    (hargs : Ty.admitsEach sig.args args = true)
    (hρ : ∀ i d, args[i]? = some d → ρ (.arg i) = some (.ofDatum d))
    (hphis : ∀ p ∈ b.phis, ∃ d, σ p.var.id = some d ∧ p.var.ty.admits d = true
      ∧ ρ (.var p.var.id) = some (.ofDatum d)) :
    ∃ σ' ρ', Executed link args ⟨target, b.label, sig.args⟩ b lb σ ρ σ' ρ' := by
  obtain ⟨start, s₁, s₂, s₃, s₄, wanted, hvalues, hinstrs, -, hlb, h₁, h₂, h₃, h₄⟩ := st
  have t₀ : Tracks link args b ρ start σ ρ := by
    refine ⟨?_, hρ, ?_⟩
    · rw [hinstrs]
      rfl
    · intro id x hx
      rw [hvalues] at hx
      exact nomatch hx
  obtain ⟨t₁, -, hbound₁⟩ := t₀.phis (fun _ hp => hp) hphis h₁
  have hargs : Ty.admitsEach (⟨target, b.label, sig.args⟩ : Env).args args = true := hargs
  obtain ⟨σ', ρ₂, hstmts, t₂, hbound₂⟩ := t₁.stmts hb hargs hundef (fun _ hc => hc) h₂
  have hnone : ∀ (r : Register) e, (∅ : ExitOperands).get? r.name = some (some e) →
      ExitStands link args b.exits s₂ σ' ρ₂ r e := by
    intro r e he
    rw [Dict.get?_empty] at he
    exact nomatch he
  obtain ⟨ρ₃, hf₃, hexits⟩ := t₂.exits hb hargs hnone h₃
  obtain ⟨ρ₄, hf₄, hleads⟩ := (t₂.follows hf₃).transfer hb hargs h₄
  have t₄ := (t₂.follows hf₃).follows hf₄
  refine ⟨σ', ρ₄, hstmts, by rw [hlb]; exact t₄.ran, ?_, t₄.args, ?_, hleads⟩
  · refine ⟨start, s₁, s₂, σ', ρ₂, hvalues, hinstrs, h₁, h₂, ?_, hstmts, t₂.ran, ?_⟩
    · obtain ⟨is, his, -⟩ := (hf₃.trans hf₄).ran
      exact ⟨is, by rw [hlb, his]⟩
    · intro id hid
      obtain ⟨x, hx⟩ : ∃ x, s₂.values.get? id = some x := by
        apply hbound₂
        rcases List.mem_append.1 hid with hid | hid
        · exact .inl (hbound₁ id (.inr hid))
        · exact .inr hid
      obtain ⟨t, d, -, hd, -, hs⟩ := t₂.bound id x hx
      exact ⟨x, d, hx, hd, hs.eval⟩
  · intro r e he
    obtain ⟨v, d, hv, hty, hd, hadm, hs⟩ := hexits r e he
    have hs₄ := hs.mono hf₄
    exact ⟨v, d, hv, hty, hd, hadm, hs₄.ty, hs₄.eval⟩

end LiftedCode.Lowering
