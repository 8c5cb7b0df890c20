/-
Blocks with comments and without. Comments come from remarks and instruction marks
only, one from each (`quiets_stmt`), and the rest of a block is silent. So a block that
is lowered with comments is lowered without them too, to the same code but for the
comments, and these are what the block remarks (`block_withoutComments`).
-/
import LiftedCode.Proofs.Lowering.Comments.Step

namespace LiftedCode

open Llvm (Typed Terminator BlockName Instr)

/-- The comment that the statement leaves in a block with the label. -/
def Stmt.remark? (label : Label) : Stmt → Option String
  | .comment text => some text
  | .instruction offset name => some (Numeral.hex (label + offset) ++ ": " ++ name)
  | .assign _ | .write _ _ _ | .writeIf _ _ _ _ | .call _ | .machine _ => none

namespace Lowering

-- ================================================================= options

/-- The same target, with comments or without. -/
def Target.withComments (t : Target) (wanted : Bool) : Target :=
  { t with options := { t.options with comments := wanted } }

/-- The same surroundings, with comments wanted or not. -/
def Env.withComments (env : Env) (wanted : Bool) : Env :=
  { env with target := env.target.withComments wanted }

variable {env : Env} {wanted : Bool} {s s' : State} {α β : Type}

-- ======================================================= not asked for them

/-- Whether comments are wanted matters to remarks and instruction marks alone. -/
theorem arguments_withComments (i : Nat) (vs : List Value) (ts : List Ty) :
    arguments (env.withComments wanted) i vs ts = arguments env i vs ts := by
  induction vs generalizing i ts with
  | nil => cases ts <;> rfl
  | cons v vs ih =>
      cases ts with
      | nil => rfl
      | cons t ts =>
          unfold arguments
          simp only [ih]
          rfl

theorem callResults_withComments (isTail : Bool) (dest : Value) (sig : Signature)
    (vs : List Value) : callResults (env.withComments wanted) isTail dest sig vs
      = callResults env isTail dest sig vs := by
  unfold callResults
  simp only [arguments_withComments]
  rfl

theorem stmt_withComments {st : Stmt} (h : ¬IsRemark st) :
    stmt (env.withComments wanted) st = stmt env st := by
  cases st with
  | assign | write | writeIf | machine => rfl
  | call k =>
      show call (env.withComments wanted) k = call env k
      unfold call
      rw [callResults_withComments]
      rfl
  | comment | instruction => exact absurd trivial h

theorem exitOperands_withComments (exits : Dict Register ExitValue) (rs : List Register)
    (done : ExitOperands) :
    exitOperands (env.withComments wanted) exits rs done = exitOperands env exits rs done := by
  induction rs generalizing done with
  | nil => rfl
  | cons r rs ih =>
      unfold exitOperands
      simp only [ih]
      rfl

theorem returnSlots_withComments (i : Nat) (r : Typed) (vs : List (Option Value)) (ts : List Ty) :
    returnSlots (env.withComments wanted) i r vs ts = returnSlots env i r vs ts := by
  induction vs generalizing i r ts with
  | nil => cases ts <;> rfl
  | cons v vs ih =>
      cases ts with
      | nil => cases v <;> rfl
      | cons t ts =>
          cases v with
          | none => exact ih (i + 1) r ts
          | some v =>
              unfold returnSlots
              simp only [ih]
              rfl

theorem transfer_withComments (sig : Signature) (t : Transfer) :
    transfer (env.withComments wanted) sig t = transfer env sig t := by
  cases t with
  | jump | branch | table => rfl
  | ret vs =>
      unfold transfer
      simp only [returnSlots_withComments]
      rfl
  | tailCall dest s vs =>
      unfold transfer
      simp only [callResults_withComments]
      rfl

-- ============================================================= statements

/-- With comments, the step `x` leaves some, and `y` goes the same way without. -/
structure Quiets (x y : Step α) (remarks : List String) : Prop where
  run : ∀ {s a s'}, Succeeds x s a s' → Succeeds y s.withoutComments a s'.withoutComments
    ∧ s'.remarks = s.remarks ++ remarks ∧ (s.declarations.Printable → s'.declarations.Printable)

theorem quiets_of_silent {x : Step α} (hx : Silent x) : Quiets x x [] where
  run h := by
    rw [List.append_nil]
    exact hx.run h

theorem Quiets.bind {x y : Step α} {f g : α → Step β} {cs ds : List String}
    (hx : Quiets x y cs) (hf : ∀ a, Quiets (f a) (g a) ds) :
    Quiets (x >>= f) (y >>= g) (cs ++ ds) where
  run h := by
    obtain ⟨a, s₁, h₁, h₂⟩ := succeeds_bind h
    obtain ⟨hrun₁, hremarks₁, hnames₁⟩ := hx.run h₁
    obtain ⟨hrun₂, hremarks₂, hnames₂⟩ := (hf a).run h₂
    refine ⟨hrun₁.bind hrun₂, ?_, hnames₂ ∘ hnames₁⟩
    rw [hremarks₂, hremarks₁, List.append_assoc]

/-- A comment is left, and nothing without comments. -/
theorem quiets_comment (c : String) : Quiets (Step.emit (.comment c)) (pure ()) [c] where
  run {s u s'} h := by
    obtain rfl := succeeds_modify h
    have hstate : State.withoutComments { s with instrs := s.instrs.push (.comment c) }
        = s.withoutComments := by
      unfold State.withoutComments
      refine congrArg (State.mk s.nextTemp s.declarations s.values · s.log) ?_
      apply Array.toList_inj.1
      simp [Instr.isComment]
    refine ⟨?_, ?_, id⟩
    · rw [hstate]
      rfl
    · show (s.instrs.push (.comment c)).toList.filterMap Instr.remark? = _
      rw [Array.toList_push, List.filterMap_append]
      rfl

theorem silent_stmt {st : Stmt} (h : ¬IsRemark st) (hst : ∀ v ∈ st.operands, v.Printable) :
    Silent (stmt env st) :=
  (composed_stmt st (fun hremark => absurd hremark h) (Reach.has_of_printable hst)).silent

/-- A statement leaves its remark, and nothing else that is not left without comments. -/
theorem quiets_stmt (st : Stmt) (hst : ∀ v ∈ st.operands, v.Printable) :
    Quiets (stmt (env.withComments true) st) (stmt (env.withComments false) st)
      (st.remark? env.label).toList := by
  have hsilent : ¬IsRemark st → st.remark? env.label = none →
      Quiets (stmt (env.withComments true) st) (stmt (env.withComments false) st)
        (st.remark? env.label).toList := by
    intro h hnone
    rw [hnone, stmt_withComments h, stmt_withComments h]
    exact quiets_of_silent (silent_stmt h hst)
  cases st with
  | assign | write | writeIf | call | machine => exact hsilent id rfl
  | comment c => exact quiets_comment c
  | instruction offset name =>
      refine ⟨fun h => ?_⟩
      obtain ⟨addr, s₁, haddr, h⟩ := succeeds_bind h
      obtain ⟨hsum, rfl⟩ := succeeds_ofExcept haddr
      obtain rfl : addr = env.label + offset := (ok_of_inRange (ok_of_mapError hsum)).2
      exact (quiets_comment _).run h

theorem quiets_stmts (sts : List Stmt) (hsts : ∀ st ∈ sts, ∀ v ∈ st.operands, v.Printable) :
    Quiets (sts.forM (stmt (env.withComments true))) (sts.forM (stmt (env.withComments false)))
      (sts.filterMap (·.remark? env.label)) := by
  induction sts with
  | nil => exact quiets_of_silent (silent_pure ())
  | cons st sts ih =>
      obtain ⟨hst, hsts⟩ := List.forall_mem_cons.1 hsts
      have hremarks : (st :: sts).filterMap (·.remark? env.label)
          = (st.remark? env.label).toList ++ sts.filterMap (·.remark? env.label) := by
        rw [List.filterMap_cons]
        cases st.remark? env.label <;> rfl
      rw [hremarks]
      exact (quiets_stmt st hst).bind fun _ => ih hsts

-- ================================================================= blocks

/-- The lowered block with its instructions only. -/
def LoweredBlock.withoutComments (lb : LoweredBlock) : LoweredBlock :=
  { lb with instrs := lb.instrs.filter (!·.isComment) }

variable {target : Target} {sig : Signature} {map : BlockMap RoutineBlock} {b : RoutineBlock}
  {lb : LoweredBlock} {p p' : Progress}

/-- With comments and without, a block is lowered to the same code but for the comments
of its statements. -/
theorem blockBody_withoutComments (hb : ∀ v ∈ b.reads, v.Printable) (hlabel : env.label = b.label)
    (h : Succeeds (blockBody (env.withComments true) sig map b) s lb s') :
    Succeeds (blockBody (env.withComments false) sig map b) s.withoutComments lb.withoutComments
        s'.withoutComments
      ∧ lb.instrs.filterMap Instr.remark? = s.remarks ++ b.stmts.filterMap (·.remark? b.label)
      ∧ (s.declarations.Printable → s'.declarations.Printable) := by
  have hstmts : ∀ st ∈ b.stmts, ∀ v ∈ st.operands, v.Printable := fun st hst v hv =>
    hb v (RoutineBlock.mem_reads_of_stmt hst hv)
  have htransfer : ∀ v ∈ b.transfer.operands, Reach.printable.Has v := fun v hv =>
    Reach.has_of_printable hb v (RoutineBlock.mem_reads_of_transfer hv)
  have hexits : ∀ r v, b.exits.get? r = some (.value v) → Reach.printable.Has v := fun r v hv =>
    Reach.has_of_printable hb v (RoutineBlock.mem_reads_of_exit hv)
  obtain ⟨_, s₁, h₁, h⟩ := succeeds_bind h
  obtain ⟨_, s₂, h₂, h⟩ := succeeds_bind h
  obtain ⟨wanted, s₂', hcheck, h⟩ := succeeds_bind h
  obtain ⟨exits, s₃, h₃, h⟩ := succeeds_bind h
  obtain ⟨term, s₄, h₄, h⟩ := succeeds_bind h
  obtain ⟨r, s₅, hget, h⟩ := succeeds_bind h
  obtain ⟨rfl, rfl⟩ := succeeds_get hget
  obtain ⟨rfl, rfl⟩ := succeeds_pure h
  rw [exitOperands_withComments] at h₃
  rw [transfer_withComments] at h₄
  obtain ⟨hphis, hremarks₁, hnames₁⟩ := (composed_bindPhis b.phis).silent.run h₁
  obtain ⟨hstmts, hremarks₂, hnames₂⟩ := (quiets_stmts b.stmts hstmts).run h₂
  obtain ⟨hcheck, hremarks, hnames⟩ := (silent_check _).run hcheck
  obtain ⟨hexits, hremarks₃, hnames₃⟩ := (confined_exitOperands hexits wanted ∅).silent.run h₃
  obtain ⟨htransfer, hremarks₄, hnames₄⟩ :=
    (confined_transfer sig b.transfer htransfer).silent.run h₄
  rw [← @exitOperands_withComments env false] at hexits
  rw [← @transfer_withComments env false] at htransfer
  refine ⟨?_, ?_, hnames₄ ∘ hnames₃ ∘ hnames ∘ hnames₂ ∘ hnames₁⟩
  · refine hphis.bind (hstmts.bind (hcheck.bind (hexits.bind (htransfer.bind ?_))))
    show Succeeds (pure _) _ _ _
    rw [LoweredBlock.withoutComments, ← Array.toList_filter]
    rfl
  · rw [← hlabel, ← hremarks₁, ← hremarks₂, ← hremarks, ← hremarks₃, ← hremarks₄]
    rfl

theorem block_withoutComments (hb : ∀ v ∈ b.reads, v.Printable)
    (h : Succeeds (block (target.withComments true) sig map b) p lb p') :
    Succeeds (block (target.withComments false) sig map b) p lb.withoutComments p'
      ∧ lb.instrs.filterMap Instr.remark? = b.stmts.filterMap (·.remark? b.label)
      ∧ (p.declarations.Printable → p'.declarations.Printable) := by
  obtain ⟨s, hbody, rfl⟩ := blockBody_of_succeeds _ _ _ h
  obtain ⟨hbody, hremarks, hnames⟩ :=
    @blockBody_withoutComments ⟨target, b.label, sig.args⟩ _ _ sig map b lb hb rfl hbody
  refine ⟨?_, hremarks, hnames⟩
  rw [Succeeds, run_block]
  have hrun : (blockBody ⟨target.withComments false, b.label, sig.args⟩ sig map b).run
      (blockStart b p) = (.ok lb.withoutComments, s.withoutComments) := hbody
  rw [hrun]
  rfl

end Lowering

end LiftedCode
