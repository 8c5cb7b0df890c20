/-
The discipline of whole blocks. A block that has been lowered is sound, its end
reads what is in sight there, and so do the operands that it hands out for
registers (`Finished`).
-/
import LiftedCode.Proofs.Lowering.Sound.Stmt
import LiftedCode.Proofs.Lowering.Stages

namespace LiftedCode.Lowering

open Llvm (Typed Operand Terminator)

variable {c : Setting} {s s' : State} {x : Typed}

-- ========================================================== phi variables

/-- Phi variables can be bound at their types. -/
theorem keeps_bindPhis {ps : List PhiBinding} (hps : ∀ p ∈ ps, p ∈ c.phis)
    (hk : c.typed → ∀ p ∈ ps, c.kinds p.var.id p.var.ty ∧ p.var.ty.lowerable = true) :
    Keeps c (bindPhis ps) s fun _ _ => True := by
  induction ps generalizing s with
  | nil => exact keeps_pure trivial
  | cons p ps ih =>
      have hentry : c.Entry (.var p.var.id) (.ofTy p.var.ty) :=
        .inr ⟨p, hps p List.mem_cons_self, rfl, rfl⟩
      have hsees : c.Sees s ⟨.ofTy p.var.ty, .reg (.var p.var.id)⟩ (.ofTy p.var.ty) := by
        refine ⟨⟨?_, nofun⟩, fun _ => rfl, fun hc => ⟨?_, .inl hentry⟩⟩
        · intro y hy
          obtain rfl := List.mem_singleton.1 hy
          exact .inl ⟨_, hentry⟩
        · exact Ty.legal_of_lowerable (hk hc p List.mem_cons_self).2
      refine (keeps_bindIdent (fun hc => (hk hc p List.mem_cons_self).1) hsees).bind
        fun _ _ _ _ => ?_
      exact ih (fun q hq => hps q (List.mem_cons_of_mem p hq))
        fun hc q hq => hk hc q (List.mem_cons_of_mem p hq)

-- ================================================================== exits

/-- Operands that are handed out for registers are in sight. -/
def Setting.Hands (c : Setting) (s : State) (exits : ExitOperands) : Prop :=
  ∀ name t x, exits.get? name = some (some (t, x)) → c.Sees s x (.ofTy t)

theorem Setting.Hands.mono {exits : ExitOperands} (h : c.Hands s exits) (hs : Grows s s') :
    c.Hands s' exits :=
  fun name t x hx => (h name t x hx).mono hs

/-- Nothing is handed out at first. -/
theorem Setting.hands_empty : c.Hands s (∅ : ExitOperands) := by
  intro name t x hx
  rw [Dict.get?_empty] at hx
  exact nomatch hx

/-- What is handed out for registers is in sight at its type. -/
theorem keeps_exitOperands {exits : Dict Register ExitValue} {rs : List Register}
    {done : ExitOperands}
    (hv : ∀ r v, exits.get? r = some (.value v) → c.Reads v (.ofTy v.ty)) (hdone : c.Hands s done) :
    Keeps c (exitOperands c.env exits rs done) s fun done' s' => c.Hands s' done' := by
  have hnone : ∀ {s done} name, c.Hands s done → c.Hands s (done.insert name none) := by
    intro s done name h q t x hq
    rw [Dict.get?_insert] at hq
    split at hq
    case isTrue => exact nomatch hq
    case isFalse => exact h q t x hq
  induction rs generalizing s done with
  | nil => exact keeps_pure hdone
  | cons r rs ih =>
      unfold exitOperands
      by_cases hr : done.contains r.name = true
      · simp only [if_pos hr]
        exact ih hdone
      simp only [if_neg hr]
      split
      case h_1 v hget =>
        refine (yields_value (hv r v hget)).bind fun x s₁ h₁ hx => ih ?_
        intro q t y hq
        rw [Dict.get?_insert] at hq
        split at hq
        case isTrue =>
          cases hq
          exact hx
        case isFalse => exact (hdone q t y hq).mono h₁
      all_goals exact ih (hnone r.name hdone)

-- ============================================================== transfers

variable {sig : Signature}

/-- Returned values are put into a structure from a place on. -/
theorem yields_returnSlots {ts us : List Ty} {vs : List (Option Value)} {i : Nat}
    (hx : c.Sees s x (.struct (Llvm.Ty.ofTys ts))) (hus : us = ts.drop i)
    (hv : ∀ v, some v ∈ vs → c.Reads v (.ofTy v.ty)) :
    Yields c (returnSlots c.env i x vs us) s (.struct (Llvm.Ty.ofTys ts)) := by
  induction vs generalizing i us s x with
  | nil => exact keeps_pure hx
  | cons v vs ih =>
      have hv' : ∀ u, some u ∈ vs → c.Reads u (.ofTy u.ty) := fun u hu =>
        hv u (List.mem_cons_of_mem v hu)
      cases us with
      | nil => cases v <;> exact keeps_pure hx
      | cons t us =>
          have hus' : us = ts.drop (i + 1) := by
            rw [← List.tail_drop, ← hus]
            rfl
          cases v with
          | none => exact ih hx hus' hv'
          | some v =>
              refine (keeps_check _).bind fun _ s₁ h₁ hty => ?_
              refine (yields_value (hv v List.mem_cons_self)).bind fun y s₂ h₂ hy => ?_
              rw [App.eq_of_expectTy hty] at hy
              have hfield : (Llvm.Ty.ofTys ts)[i]? = some (.ofTy t) := by
                rw [Llvm.Ty.ofTys_eq_map, List.getElem?_map, ← List.head?_drop, ← hus]
                rfl
              refine (yields_insertValue (hx.mono (h₁.trans h₂)) hy fun _ => hfield).bind
                fun z s₃ _ hz => ?_
              exact ih hz hus' hv'

/-- The end of a block refers to what is in sight, and obeys the typing rules. -/
theorem keeps_transfer {t : Transfer} (hv : ∀ v ∈ t.operands, c.Reads v (.ofTy v.ty))
    (hsig : c.typed → ∀ t ∈ sig.rets, t.lowerable = true) :
    Keeps c (transfer c.env sig t) s fun u s' => (∀ o ∈ u.operands, c.Finds s' o)
      ∧ (c.typed → u.WellTyped (c.scope s') (.ofResults sig)) := by
  -- one operand is read, with the type that it needs
  have hone : ∀ {u : Terminator} {x : Typed} {t : Llvm.Ty} {s : State},
      u.operands = [x.operand] → c.Sees s x t → ∀ o ∈ u.operands, c.Finds s o := by
    intro u x t s hu hx o ho
    rw [hu] at ho
    obtain rfl := List.mem_singleton.1 ho
    exact hx.finds
  cases t with
  | jump l => exact keeps_pure ⟨nofun, fun _ => trivial⟩
  | branch p l m =>
      refine (keeps_check _).bind fun _ s₁ _ hty => ?_
      have hp : c.Reads p (.int 1) :=
        (hv p (by simp [Transfer.operands])).of_ty fun _ => App.eq_of_expectTy hty
      refine (yields_value hp).bind fun x s₂ _ hx => keeps_pure ⟨hone rfl hx, fun hc => ?_⟩
      exact ⟨hx.ty hc, hx.wellTyped hc⟩
  | table i ls =>
      refine (keeps_check _).bind fun w s₁ _ hty => ?_
      refine keeps_guard fun _ => ?_
      have hi : c.Reads i (.int w) :=
        (hv i (by simp [Transfer.operands])).of_ty fun _ => App.eq_of_expectBits hty
      refine (yields_value hi).bind fun x s₂ _ hx => keeps_pure ⟨hone rfl hx, fun hc => ?_⟩
      exact ⟨hx.ty hc, hx.wellTyped hc⟩
  | ret vs =>
      refine keeps_guard fun _ => ?_
      have hundef : c.Sees s ⟨.ofResults sig, .undef⟩ (.ofResults sig) :=
        Setting.sees_undef fun hc => legal_ofResults (hsig hc)
      have hvs : ∀ v, some v ∈ vs → c.Reads v (.ofTy v.ty) := fun v h =>
        hv v (List.mem_filterMap.2 ⟨some v, h, rfl⟩)
      refine (yields_returnSlots hundef rfl hvs).bind fun x s₁ _ hx =>
        keeps_pure ⟨hone rfl hx, fun hc => ?_⟩
      exact ⟨hx.ty hc, hx.wellTyped hc⟩
  | tailCall f σ vs =>
      refine keeps_guard fun hσ => ?_
      have hσ := Decidable.not_not.1 hσ
      have hrets : c.typed → ∀ t ∈ σ.rets, t.lowerable = true := fun hc => by
        rw [hσ]
        exact hsig hc
      refine (yields_callResults hv hrets).bind fun x s₁ _ hx =>
        keeps_pure ⟨hone rfl hx, fun hc => ⟨?_, hx.wellTyped hc⟩⟩
      rw [hx.ty hc, Llvm.Ty.ofResults, hσ]
      rfl

-- ================================================================= blocks

/-- What is promised of a block. -/
structure Setting.Lowerable (c : Setting) (sig : Signature) (b : RoutineBlock) : Prop where
  phis : b.phis = c.phis
  kinds : c.typed → ∀ p ∈ b.phis, c.kinds p.var.id p.var.ty ∧ p.var.ty.lowerable = true
  stmts : ∀ st ∈ b.stmts, c.Admissible st
  exits : ∀ r v, b.exits.get? r = some (.value v) → c.Reads v (.ofTy v.ty)
  transfer : ∀ v ∈ b.transfer.operands, c.Reads v (.ofTy v.ty)
  rets : c.typed → ∀ t ∈ sig.rets, t.lowerable = true

/-- A block was lowered, and `s` is the state at its end. -/
structure Finished (c : Setting) (sig : Signature) (b : RoutineBlock) (s : State)
    (lb : LoweredBlock) : Prop where
  label : lb.label = b.label
  sound : c.Sound s
  instrs : lb.instrs = s.instrs.toList
  finds : ∀ o ∈ lb.terminator.operands, c.Finds s o
  wellTyped : c.typed → lb.terminator.WellTyped (c.scope s) (.ofResults sig)
  exits : c.Hands s lb.exits
  casts : c.typed → (∃ st ∈ b.stmts, st.castsUnit = true) → c.CastsUnit s

theorem Finished.known {b : RoutineBlock} {lb : LoweredBlock} (h : Finished c sig b s lb) :
    ∀ y ∈ lb.terminator.reads, c.Knows s y := by
  intro y hy
  obtain ⟨o, ho, hy⟩ := List.mem_flatMap.1 hy
  exact (h.finds o ho).locals y hy

/-- A block that can be lowered is finished when it has been. -/
theorem keeps_blockBody {map : BlockMap RoutineBlock} {b : RoutineBlock}
    (hb : c.Lowerable sig b) : Keeps c (blockBody c.env sig map b) s fun lb s' =>
      c.Sound s' → Finished c sig b s' lb := by
  refine (keeps_bindPhis (fun p hp => hb.phis ▸ hp) hb.kinds).bind fun _ s₁ _ _ => ?_
  refine (keeps_stmts hb.stmts).bind fun _ s₂ _ hcasts => ?_
  refine (keeps_check _).bind fun wanted s₃ h₃ _ => ?_
  refine (keeps_exitOperands hb.exits Setting.hands_empty).bind fun exits s₄ h₄ hexits => ?_
  refine (keeps_transfer hb.transfer hb.rets).bind fun term s₅ h₅ hterm => ?_
  intro lb s' hrun hs
  obtain ⟨r, s₆, hget, hrun⟩ := succeeds_bind hrun
  obtain ⟨rfl, rfl⟩ := succeeds_get hget
  obtain ⟨rfl, rfl⟩ := succeeds_pure hrun
  exact ⟨hs, .refl _, fun hs => ⟨rfl, hs, rfl, hterm.1, hterm.2, hexits.mono h₅,
    fun hc hcast => (hcasts hc hcast).mono (h₃.trans (h₄.trans h₅))⟩⟩

/-- Where nothing has been emitted and nothing is bound, everything is sound. -/
theorem sound_of_empty (hn : c.first = s.nextTemp) (hi : s.instrs = #[]) (hv : s.values = ∅) :
    c.Sound s := by
  have hnil : s.instrs.toList = [] := by rw [hi]
  have hnone : ∀ i, i ∉ s.instrs.toList := fun i => by
    rw [hnil]
    exact List.not_mem_nil
  refine ⟨Nat.le_of_eq hn, ?_, ?_, ?_, ?_, ?_⟩
  · rw [hnil, hn, temps_self]
    rfl
  · rw [hnil]
    exact trivial
  · exact fun i hi => absurd hi (hnone i)
  · exact fun _ i hi => absurd hi (hnone i)
  · intro id x hx
    rw [hv, Dict.get?_empty] at hx
    exact nomatch hx

/-- The body of a block that is lowered starts from what the blocks before it
have declared, and the lowering goes on from where it ends. -/
theorem blockBody_of_block {target : Target} {map : BlockMap RoutineBlock} {b : RoutineBlock}
    {p p' : Progress} {lb : LoweredBlock} (henv : c.env = ⟨target, b.label, sig.args⟩)
    (hfirst : c.first = p.nextTemp) (h : Succeeds (block target sig map b) p lb p') :
    ∃ start s, c.Sound start ∧ start.declarations = p.declarations
      ∧ Succeeds (blockBody c.env sig map b) start lb s
      ∧ p' = ⟨s.nextTemp, s.declarations, s.log⟩ := by
  obtain ⟨s, hrun, hp'⟩ := blockBody_of_succeeds target sig map h
  rw [← henv] at hrun
  exact ⟨blockStart b p, s, sound_of_empty hfirst rfl rfl, rfl, hrun, hp'⟩

/-- A block that is lowered is finished, where the lowering goes on. -/
theorem finished_of_block {target : Target} {map : BlockMap RoutineBlock} {b : RoutineBlock}
    {p p' : Progress} {lb : LoweredBlock} (henv : c.env = ⟨target, b.label, sig.args⟩)
    (hfirst : c.first = p.nextTemp) (hb : c.Lowerable sig b)
    (h : Succeeds (block target sig map b) p lb p') :
    ∃ s, Finished c sig b s lb ∧ s.nextTemp = p'.nextTemp ∧ s.declarations = p'.declarations
      ∧ (∀ d : Llvm.Declaration, p.declarations.get? d.name = some d →
          p'.declarations.get? d.name = some d)
      ∧ (p.declarations.Keyed → p'.declarations.Keyed) := by
  obtain ⟨start, s, hsound, hdecls, hrun, rfl⟩ := blockBody_of_block henv hfirst h
  obtain ⟨hs, hg, hfin⟩ := keeps_blockBody hb lb s hrun hsound
  rw [← hdecls]
  exact ⟨s, hfin hs, rfl, rfl, hg.declared, hg.keyed⟩

end LiftedCode.Lowering
