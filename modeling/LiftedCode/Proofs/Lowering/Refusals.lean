/-
Why a routine is refused. A routine that passes its check binds an identifier once, so
no block finds one bound (`binds_blockBody`), and all that its blocks lead to is there,
so no successor or predecessor is missed. What is left is explained by the reach of the
values that the routine reads (`refused_cases`), in which nothing has to do with the
structure of the routine (`routine_structural`), and two declarations of one name are
the same if those of the functions that it reads are (`routine_unclashing`).
-/
import LiftedCode.Proofs.Flow.Overlap
import LiftedCode.Proofs.Lowering.Code
import LiftedCode.Proofs.Lowering.Confined.Block

namespace LiftedCode

/-- The function that a value is the address of. -/
def Value.function? : Value → Option FunctionRef
  | entry f => some f
  | _ => none

/-- The functions that the blocks of a routine read. -/
def Routine.functions (r : Routine) : List FunctionRef :=
  r.blocks.flatMap fun b => b.reads.filterMap Value.function?

namespace Lowering

open Llvm (Typed Declaration Intrinsic.IsIntrinsic Intrinsic.tableFailure)

variable {R : Reach} {α β : Type}

-- =============================================================== bindings

/-- What a run comes to that binds the identifiers, where others are bound to `values`. -/
structure Reach.BindOutcome (R : Reach) (ids : List Ident) (values : Dict Ident Typed)
    (out : Except LoweringError α × State) : Prop where
  covers : R.Covers out.2.declarations
  unbound : ∀ id ∉ ids, values.get? id = none → out.2.values.get? id = none
  explains : ∀ e, out.1 = .error e → R.Explains e

/-- The step binds no identifiers but the given ones, and as long as these are new, the
reach explains its failures. -/
def Binds (R : Reach) (ids : List Ident) (m : Step α) : Prop :=
  ∀ s : State, R.Covers s.declarations → ids.Nodup → (∀ id ∈ ids, s.values.get? id = none) →
    R.BindOutcome ids s.values (m.run.run s)

/-- A confined step binds nothing. -/
theorem Confined.binds {m : Step α} (h : Confined R m) : Binds R [] m := by
  intro s hs _ _
  obtain ⟨hcovers, hvalues, hexplains⟩ := h.run hs
  exact ⟨hcovers, fun id _ hid => hvalues ▸ hid, hexplains⟩

/-- Fewer identifiers may be bound than are given. -/
theorem Binds.of_sublist {ids ids' : List Ident} {m : Step α} (h : Binds R ids m)
    (hsub : ids.Sublist ids') : Binds R ids' m := by
  intro s hs hn hnew
  obtain ⟨hcovers, hunbound, hexplains⟩ :=
    h s hs (hn.sublist hsub) fun id hid => hnew id (hsub.mem hid)
  exact ⟨hcovers, fun id hid => hunbound id fun hmem => hid (hsub.mem hmem), hexplains⟩

/-- One step after the other binds what both of them bind. -/
theorem Binds.bind {ids ids' : List Ident} {x : Step α} {f : α → Step β} (hx : Binds R ids x)
    (hf : ∀ a, Binds R ids' (f a)) : Binds R (ids ++ ids') (x >>= f) := by
  intro s hs hn hnew
  obtain ⟨hn, hn', hdisj⟩ := List.nodup_append.1 hn
  rw [List.forall_mem_append] at hnew
  have hx := hx s hs hn hnew.1
  rw [run_bind]
  generalize x.run.run s = out at hx
  obtain ⟨e | a, s₁⟩ := out
  · refine ⟨hx.covers, fun id hid => ?_, ?_⟩
    · exact hx.unbound id fun hmem => hid (List.mem_append_left ids' hmem)
    · rintro _ ⟨⟩
      exact hx.explains e rfl
  · -- what is bound next has not been bound by the first step
    have hnew' : ∀ id ∈ ids', s₁.values.get? id = none := fun id hid =>
      hx.unbound id (fun hmem => hdisj id hmem id hid rfl) (hnew.2 id hid)
    have hf := hf a s₁ hx.covers hn' hnew'
    refine ⟨hf.covers, fun id hid hnone => ?_, hf.explains⟩
    rw [List.mem_append, not_or] at hid
    exact hf.unbound id hid.2 (hx.unbound id hid.1 hnone)

/-- Binding an identifier that is new does not fail. -/
theorem binds_bindIdent (id : Ident) (x : Typed) : Binds R [id] (Step.bind id x) := by
  intro s hs _ hnew
  have hid : s.values.get? id = none := hnew id List.mem_cons_self
  have hcontains : s.values.contains id = false := by
    rw [Dict.contains, hid]
    rfl
  rw [run_bindIdent, hcontains]
  refine ⟨hs, fun id' hid' hnone => ?_, nofun⟩
  rw [Dict.get?_insert, if_neg fun he => hid' (List.mem_singleton.2 he.symm)]
  exact hnone

/-- What is put together from confined steps and bindings binds the identifiers. -/
theorem Composed.binds {ids : List Ident} {m : Step α} (h : Composed R ids m) : Binds R ids m := by
  induction h with
  | confined h => exact h.binds
  | bindIdent id x => exact binds_bindIdent id x
  | bind _ _ ihx ihf => exact ihx.bind ihf
  | fewer _ hsub ih => exact ih.of_sublist hsub

variable {env : Env}

-- ================================================================= blocks

/-- What a value in the block refers to is within reach. -/
def Reach.HasAll (R : Reach) (b : RoutineBlock) : Prop := ∀ v ∈ b.reads, R.Has v

section

variable {r : Routine} {map : BlockMap RoutineBlock} {b : RoutineBlock} {sig : Signature}
  {target : Target}

/-- In a well-formed routine it is found which registers the successors of a block want. -/
theorem wantedRegisters_of_wellFormed (hr : r.WellFormed) (hmap : r.blockMap = .ok map)
    (hb : b ∈ r.blocks) : ∃ wanted, wantedRegisters map b = .ok wanted := by
  have hget : ∀ l ∈ b.transfer.successors, ∃ c, map.get l = .ok c := by
    intro l hl
    obtain ⟨c, hc, rfl⟩ := hr.closed b hb l hl
    exact ⟨c, BlockMap.get_of_build hmap hr.labels hc⟩
  choose! g hg using hget
  unfold wantedRegisters
  rw [mapM_eq_map hg]
  exact ⟨_, rfl⟩

/-- A block binds what it is said to bind. -/
theorem binds_blockBody (hcomments : R.comments) (hb : R.HasAll b)
    (hwanted : ∃ wanted, wantedRegisters map b = .ok wanted) :
    Binds R b.binds (blockBody env sig map b) := by
  have hstmts : ∀ st ∈ b.stmts, ∀ v ∈ st.operands, R.Has v := fun st hst v hv =>
    hb v (RoutineBlock.mem_reads_of_stmt hst hv)
  have htransfer : ∀ v ∈ b.transfer.operands, R.Has v := fun v hv =>
    hb v (RoutineBlock.mem_reads_of_transfer hv)
  have hexits : ∀ r v, b.exits.get? r = some (.value v) → R.Has v := fun r v hv =>
    hb v (RoutineBlock.mem_reads_of_exit hv)
  have hcheck : Confined R (Step.check (wantedRegisters map b)) := by
    obtain ⟨wanted, hwanted⟩ := hwanted
    rw [hwanted]
    exact .ofExcept nofun
  have hend : Binds R [] (do
      let wanted ← Step.check (wantedRegisters map b)
      let exits ← exitOperands env b.exits wanted ∅
      let terminator ← transfer env sig b.transfer
      return (⟨b.label, (← get).instrs.toList, terminator, exits⟩ : LoweredBlock)) := by
    refine hcheck.binds.bind fun wanted => ?_
    refine (confined_exitOperands hexits wanted ∅).binds.bind fun exits => ?_
    refine (confined_transfer sig b.transfer htransfer).binds.bind fun terminator => ?_
    exact fun s hs _ _ => ⟨hs, fun _ _ => id, nofun⟩
  have hbinds : b.binds
      = b.phis.map (·.var.id) ++ (b.stmts.flatMap Stmt.binds ++ []) := by
    rw [List.append_nil]
    rfl
  rw [hbinds]
  exact (composed_bindPhis b.phis).binds.bind fun _ =>
    (composed_stmts hcomments b.stmts hstmts).binds.bind fun _ => hend

-- =============================================================== routines

/-- The reach covers what is declared and explains failures. -/
def Accounts (R : Reach) (m : ExceptT LoweringError (StateM Progress) α) : Prop :=
  ∀ p : Progress, R.Covers p.declarations → R.Covers (m.run.run p).2.declarations
    ∧ ∀ e, (m.run.run p).1 = .error e → R.Explains e

theorem accounts_pure (a : α) : Accounts R (pure a) := fun _ hp => ⟨hp, nofun⟩

theorem Accounts.bind {x : ExceptT LoweringError (StateM Progress) α}
    {f : α → ExceptT LoweringError (StateM Progress) β} (hx : Accounts R x)
    (hf : ∀ a, Accounts R (f a)) : Accounts R (x >>= f) := by
  intro p hp
  have hx := hx p hp
  rw [run_bind]
  generalize x.run.run p = out at hx
  obtain ⟨e | a, p₁⟩ := out
  · refine ⟨hx.1, ?_⟩
    rintro _ ⟨⟩
    exact hx.2 e rfl
  · exact hf a p₁ hx.1

theorem accounts_ofCheck {x : Except LoweringError α} (h : ∀ e, x = .error e → R.Explains e) :
    Accounts R (ofCheck x) := fun _ hp => ⟨hp, h⟩

/-- What comes of a check that succeeds. -/
theorem accounts_ofCheck_bind {x : Except LoweringError α} {a : α}
    {f : α → ExceptT LoweringError (StateM Progress) β} (hx : x = .ok a) (hf : Accounts R (f a)) :
    Accounts R (ofCheck x >>= f) := by
  subst hx
  exact hf

theorem accounts_mapM {f : α → ExceptT LoweringError (StateM Progress) β} {as : List α}
    (h : ∀ a ∈ as, Accounts R (f a)) : Accounts R (as.mapM f) := by
  induction as with
  | nil => exact accounts_pure []
  | cons a as ih =>
      rw [List.mapM_cons]
      refine (h a List.mem_cons_self).bind fun b => ?_
      exact (ih fun c hc => h c (List.mem_cons_of_mem a hc)).bind fun bs => accounts_pure _

/-- A block is refused for reasons within reach. -/
theorem accounts_block (hcomments : R.comments) (hr : r.WellFormed) (hmap : r.blockMap = .ok map)
    (hb : b ∈ r.blocks) (hreads : R.HasAll b) : Accounts R (block target sig map b) := by
  intro p hp
  have hbinds : Binds R b.binds (blockBody ⟨target, b.label, sig.args⟩ sig map b) :=
    binds_blockBody hcomments hreads (wantedRegisters_of_wellFormed hr hmap hb)
  have hbody := hbinds (blockStart b p) hp (hr.binds_nodup hb) fun _ _ => rfl
  exact ⟨hbody.covers, hbody.explains⟩

/-- A type that was not expected is no fault of the structure. -/
theorem isOrdinary_of_expectTy {site : Site} {t u : Ty} {e : CodeError}
    (h : expectTy site t u = .error e) : (LoweringError.code e).IsOrdinary := by
  unfold expectTy at h
  split at h
  · nomatch h
  · cases h
    trivial

/-- A phi variable without a value is no fault of the structure. -/
theorem isOrdinary_of_phiOperand {done : Dict Label LoweredBlock} {p : PhiBinding} {pred : Label}
    {e : LoweringError} (h : phiOperand done p pred = .error e) : e.IsOrdinary := by
  unfold phiOperand at h
  dsimp only at h
  split at h
  · cases h
    trivial
  · rcases error_of_bind h with hty | ⟨_, _, h⟩
    · obtain ⟨c, hc, rfl⟩ := error_of_mapError hty
      exact isOrdinary_of_expectTy hc
    · nomatch h

/-- The predecessors of a block are known, so that its phi variables are chosen or refused
for what they are. -/
theorem isOrdinary_of_phis (hmap : r.blockMap = .ok map) (hb : b ∈ r.blocks)
    {done : Dict Label LoweredBlock} {e : LoweringError} (h : phis map done b = .error e) :
    e.IsOrdinary := by
  have hpreds : map.predecessors b.label = .ok _ := BlockMap.predecessors_of_build hmap hb
  unfold phis at h
  split at h
  · nomatch h
  · rcases error_of_bind h with h | ⟨preds, -, h⟩
    · rw [hpreds] at h
      nomatch h
    split at h
    · cases h
      trivial
    · obtain ⟨p, -, h⟩ := error_of_mapM h
      rcases error_of_bind h with h | ⟨_, _, h⟩
      · obtain ⟨pred, -, h⟩ := error_of_mapM h
        exact isOrdinary_of_phiOperand h
      · nomatch h

/-- The report of a failure is declared, if it is wanted. -/
theorem accounts_reportFailure (wanted : Bool) (d : LoweredDefinition) :
    Accounts R (reportFailure wanted d) := by
  cases wanted with
  | false => exact accounts_pure d
  | true =>
      intro p hp
      have hdeclare :
          (∀ ds, ((p.declarations.declare Intrinsic.tableFailure).run p.log).1 = .ok ds →
            R.Covers ds)
          ∧ ∀ e, ((p.declarations.declare Intrinsic.tableFailure).run p.log).1 = .error e →
            R.Explains e := hp.declare (.inl inferInstance) p.log
      rw [run_reportFailure_wanted]
      generalize (p.declarations.declare Intrinsic.tableFailure).run p.log = out at hdeclare ⊢
      obtain ⟨e | ds, log⟩ := out
      · refine ⟨hp, ?_⟩
        rintro _ ⟨⟩
        exact hdeclare.2 e rfl
      · exact ⟨hdeclare.1 ds rfl, nofun⟩

/-- A routine is refused for reasons within reach. -/
theorem accounts_routineBody (hcomments : R.comments) (hr : r.WellFormed)
    (hmap : r.blockMap = .ok map) (hreads : ∀ b ∈ r.blocks, R.HasAll b) :
    Accounts R (routineBody target r map) := by
  obtain ⟨entry, hentry, hlabel, -⟩ := hr.entry
  have hget : map.get r.entry = .ok entry := hlabel ▸ BlockMap.get_of_build hmap hr.labels hentry
  have hpreds : ∃ ps, map.predecessors r.entry = .ok ps := by
    rw [← hlabel]
    exact ⟨_, BlockMap.predecessors_of_build hmap hentry⟩
  have horder : ∃ order, lowerOrder map r.entry = .ok order := by
    unfold lowerOrder
    rw [hget]
    exact ⟨_, rfl⟩
  have hinit : ∃ init, initBlock map r.entry = .ok init := by
    obtain ⟨ps, hps⟩ := hpreds
    unfold initBlock
    rw [hps, ok_bind]
    split <;> exact ⟨_, rfl⟩
  obtain ⟨order, horder⟩ := horder
  obtain ⟨init, hinit⟩ := hinit
  have hmem : ∀ b ∈ order, b ∈ r.blocks := fun b hb => ((of_lowerOrder hr hmap horder).2.1 b).1 hb
  refine accounts_ofCheck_bind (a := order) (by rw [horder]; rfl) ?_
  refine (accounts_mapM fun b hb => ?_).bind fun lowered => ?_
  · exact accounts_block hcomments hr hmap (hmem b hb) (hreads b (hmem b hb))
  refine (accounts_ofCheck fun e he => ?_).bind fun chosen => ?_
  · obtain ⟨b, hb, he⟩ := error_of_mapM he
    exact .ordinary (isOrdinary_of_phis hmap (hmem b hb) he)
  refine accounts_ofCheck_bind (a := init) (by rw [hinit]; rfl) ?_
  exact accounts_reportFailure _ _

/-- A routine is refused for what its check or its graph finds, or the reach of what it
reads explains why. -/
theorem refused_cases (hcomments : R.comments) (hreads : ∀ b ∈ r.blocks, R.HasAll b) {log : Log}
    {e : LoweringError} (h : ((routine target r).run.run log).1 = .error e) :
    (∃ c, r.check = .error c ∧ e = .code c)
      ∨ r.check = .ok () ∧ ((∃ c, r.blockMap = .error c ∧ e = .code c) ∨ R.Explains e) := by
  cases hcheck : r.check with
  | error c =>
      unfold routine at h
      rw [hcheck] at h
      cases h
      exact .inl ⟨c, rfl, rfl⟩
  | ok u =>
      refine .inr ⟨rfl, ?_⟩
      cases hmap : r.blockMap with
      | error c =>
          unfold routine at h
          rw [hcheck, hmap] at h
          cases h
          exact .inl ⟨c, rfl, rfl⟩
      | ok map =>
          refine .inr ?_
          have haccounts : Accounts R (routineBody target r map) :=
            accounts_routineBody hcomments (Routine.wellFormed_of_check hcheck) hmap hreads
          have hbody := haccounts (startProgress r map log) ⟨Declarations.keyed_empty, nofun⟩
          rw [run_routine hcheck hmap] at h
          generalize (routineBody target r map).run.run (startProgress r map log) = out at hbody h
          obtain ⟨e' | d, p⟩ := out
          · cases h
            exact hbody.2 e rfl
          · nomatch h

/-- What comes with the code of a routine is declared within its reach. -/
theorem covers_of_succeeds (hcomments : R.comments) (hreads : ∀ b ∈ r.blocks, R.HasAll b)
    {log log' : Log} {l : LoweredRoutine} (h : Succeeds (routine target r) log l log') :
    R.Covers l.declarations := by
  obtain ⟨hcheck, map, -, -, hmap, -⟩ := of_routine h
  have haccounts : Accounts R (routineBody target r map) :=
    accounts_routineBody hcomments (Routine.wellFormed_of_check hcheck) hmap hreads
  have hbody := haccounts (startProgress r map log) ⟨Declarations.keyed_empty, nofun⟩
  rw [Succeeds, run_routine hcheck hmap] at h
  generalize (routineBody target r map).run.run (startProgress r map log) = out at hbody h
  obtain ⟨e | d, p⟩ := out
  · nomatch h
  · cases h
    exact hbody.1

end

-- ============================================================== structure

/-- Whether the error says that identifiers or labels are not unique, that a block is
missing or that the entry has phi variables. -/
def LoweringError.IsStructural : LoweringError → Prop
  | .code (.duplicateAssignment _) | .code (.duplicateBlock _) | .code (.blockNotFound _)
  | .code (.phiInEntryBlock _) => True
  | _ => False

/-- No reason within reach is one of the structure. -/
theorem Reach.Explains.not_isStructural {e : LoweringError} (h : R.Explains e) :
    ¬ e.IsStructural := by
  intro hs
  cases h with
  | ordinary h =>
      unfold LoweringError.IsStructural at hs
      split at hs
      · exact h
      · exact h
      · exact h
      · exact h
      · exact hs
  | unbound | conflict => exact hs

/-- The check of a routine finds exactly what it is for, and nothing that comes after it
finds any of that again: neither the graph of the blocks, which is refused only where
blocks overlap, nor the lowering. -/
theorem routine_structural (r : Routine) : (r.check = .ok () ↔ r.WellFormed)
    ∧ (r.check = .ok () → (∀ e, r.blockMap = .error e → ∃ l m, e = .overlappingBlocks l m)
      ∧ ∀ target log e, ((routine target r).run.run log).1 = .error e → ¬ e.IsStructural) := by
  refine ⟨⟨Routine.wellFormed_of_check, Routine.check_of_wellFormed⟩, fun hcheck => ?_⟩
  have hr := Routine.wellFormed_of_check hcheck
  have hmap : ∀ e, r.blockMap = .error e → ∃ l m, e = .overlappingBlocks l m := fun e he =>
    BlockMap.overlapping_of_build hr.labels hr.closed he
  refine ⟨hmap, fun target log e he => ?_⟩
  have hreads : ∀ b ∈ r.blocks, Reach.all.HasAll b := fun _ _ _ _ => inferInstance
  rcases refused_cases trivial hreads he with ⟨c, hc, -⟩ | ⟨-, ⟨c, hc, rfl⟩ | hexplains⟩
  · rw [hcheck] at hc
    nomatch hc
  · obtain ⟨l, m, rfl⟩ := hmap c hc
    exact id
  · exact hexplains.not_isStructural

/-- Blocks of which the first jumps into its own middle. -/
def jumpsInside : Routine where
  name := "jumps_inside"
  addr := 0
  signature := ⟨[], [], false⟩
  entry := 0
  blocks := [⟨0, 5, [], [], .jump 4, ∅⟩, ⟨4, 4, [], [], .ret [], ∅⟩]

/-- A routine that jumps into the middle of a block passes its check, and its block map is
refused as overlapping. -/
theorem routine_structural_jumpsInside : jumpsInside.check = .ok ()
    ∧ (∃ e, jumpsInside.blockMap = .error e ∧ ∃ l m, e = .overlappingBlocks l m)
    ∧ ∀ target log e, ((routine target jumpsInside).run.run log).1 = .error e →
      ¬ e.IsStructural := by
  have hcheck : jumpsInside.check = .ok () := rfl
  obtain ⟨hmap, hlower⟩ := (routine_structural jumpsInside).2 hcheck
  refine ⟨hcheck, ?_, hlower⟩
  cases hbuild : jumpsInside.blockMap with
  | error e => exact ⟨e, rfl, hmap e hbuild⟩
  | ok map => exact absurd (BlockMap.exists_build_iff.1 ⟨map, hbuild⟩) (by decide)

-- ============================================================ declarations

/-- What the values of a routine refer to is within reach. -/
def Reach.ofRoutine (r : Routine) : Reach := ⟨fun _ => True, (· ∈ r.functions), True⟩

/-- The reach of a routine has all that its blocks read. -/
theorem Reach.hasAll_ofRoutine {r : Routine} {b : RoutineBlock} (hb : b ∈ r.blocks) :
    (Reach.ofRoutine r).HasAll b := by
  refine fun v hv => ⟨fun _ _ => trivial, ?_⟩
  rintro f rfl
  exact List.mem_flatMap.2 ⟨b, hb, List.mem_filterMap.2 ⟨_, hv, rfl⟩⟩

/-- Short forms of types are different, and so the functions that generated code calls on
its own account are told apart by their names. A routine asks for these and for functions
that it reads, and if those have other names, and one declaration for a name, there is no
conflict. -/
theorem routine_unclashing : (∀ t u : Llvm.Ty, t.mangled = u.mangled → t = u)
    ∧ (∀ d d', Intrinsic.IsIntrinsic d → Intrinsic.IsIntrinsic d' → d.name = d'.name → d = d')
    ∧ ∀ (r : Routine) (target : Target) (log : Log),
      (∀ l log', Succeeds (routine target r) log l log' → ∀ d ∈ l.declarations.values,
        Intrinsic.IsIntrinsic d
          ∨ ∃ f ∈ r.functions, d = Declaration.ofFunction f.name f.signature)
      ∧ ((∀ f ∈ r.functions, ¬ Llvm.Intrinsic.Reserved f.name) →
        (∀ f ∈ r.functions, ∀ g ∈ r.functions, f.name = g.name →
          Declaration.ofFunction f.name f.signature = .ofFunction g.name g.signature) →
        ∀ name, ((routine target r).run.run log).1 ≠ .error (.conflictingDeclaration name)) := by
  refine ⟨fun _ _ => Llvm.Ty.eq_of_mangled, fun _ _ h h' => h.eq_of_name h', ?_⟩
  intro r target log
  have hreads : ∀ b ∈ r.blocks, (Reach.ofRoutine r).HasAll b := fun _ => Reach.hasAll_ofRoutine
  refine ⟨fun l log' h => (covers_of_succeeds trivial hreads h).2, ?_⟩
  intro hreserved hequal name h
  -- declarations of one name are of intrinsics or of functions
  have hsame : ∀ d d', (Reach.ofRoutine r).Declares d → (Reach.ofRoutine r).Declares d' →
      d'.name = d.name → d' = d := by
    rintro d d' (hd | ⟨f, hf, rfl⟩) (hd' | ⟨g, hg, rfl⟩) hname
    · exact hd'.eq_of_name hd hname
    · have hg' : g.name = d.name := hname
      exact absurd (hg' ▸ hd.reserved) (hreserved g hg)
    · have hf' : d'.name = f.name := hname
      exact absurd (hf' ▸ hd'.reserved) (hreserved f hf)
    · exact hequal g hg f hf hname
  rcases refused_cases trivial hreads h with ⟨_, -, hc⟩ | ⟨-, ⟨_, -, hc⟩ | hexplains⟩
  · nomatch hc
  · nomatch hc
  · cases hexplains with
    | ordinary h => exact h
    | conflict hd hd' hname hne => exact hne (hsame _ _ hd hd' hname)

/-- Something to report numbers to. -/
def report : FunctionRef := ⟨"report", 4096, ⟨[.bits 64], [], false⟩⟩

/-- Report how many bits of the argument are set, and which is the first. -/
def reports : Routine where
  name := "reports"
  addr := 0
  signature := ⟨[.bits 64], [], false⟩
  entry := 0
  blocks := [
    ⟨0, 8, [], [
      .assign ⟨0, .app (.unary .popCount 64 (.arg 0 (.bits 64))), .bits 64⟩,
      .assign ⟨1, .app (.unary .scanForward 64 (.arg 0 (.bits 64))), .bits 64⟩,
      .call ⟨.entry report, report.signature, [.returned ⟨0, .bits 64⟩], []⟩,
      .call ⟨.entry report, report.signature, [.returned ⟨1, .bits 64⟩], []⟩], .ret [], ∅⟩]

/-- A routine that calls one function twice does not clash with itself. -/
theorem routine_unclashing_reports : reports.functions = [report, report]
    ∧ ∀ target log name,
      ((routine target reports).run.run log).1 ≠ .error (.conflictingDeclaration name) := by
  have hfunctions : reports.functions = [report, report] := rfl
  have hall : ∀ f ∈ reports.functions, f = report := by
    rw [hfunctions]
    simp
  refine ⟨hfunctions, fun target log => (routine_unclashing.2.2 reports target log).2 ?_ ?_⟩
  · intro f hf
    rw [hall f hf]
    decide +kernel
  · intro f hf g hg _
    rw [hall f hf, hall g hg]

end Lowering

end LiftedCode
