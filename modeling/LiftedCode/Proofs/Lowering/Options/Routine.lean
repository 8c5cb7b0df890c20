/-
The options of the code change only what they say. Lowered under any two options,
a routine is refused for the same reason, or gives the same code: all comments
and the flags of counts of zeros aside, the definitions differ at most in the
block where a table goes for an index that it does not have, and the declarations
at most in the function that is called there (`routine_options`).

The blocks are lowered in step, one after the other (`agree_block`). The phi
variables are chosen from what the blocks hand out, which the options do not
touch (`phis_eq`). The failure is declared at the end: the name is free until
then, so that the declaration cannot be refused (`agree_routineBody`).
-/
import LiftedCode.Proofs.Lowering.Code
import LiftedCode.Proofs.Lowering.Options.Stmt

namespace LiftedCode

open Llvm (Instr Terminator Phi essence Intrinsic.tableFailure)

/-- The block without what options may touch: comments, the flags of counts of
zeros, and what is done about an index that a table does not have. -/
def Llvm.Block.essence (b : Llvm.Block Instr Terminator) : Llvm.Block Instr Terminator :=
  { b with instrs := if b.label = .tableFailure then [] else Llvm.essence b.instrs }

/-- What of a definition the options do not touch. -/
def Llvm.Definition.essence (d : Llvm.Definition Instr Terminator) :
    Llvm.Definition Instr Terminator :=
  { d with blocks := d.blocks.map Llvm.Block.essence }

namespace Lowering

/-- Code that is the same but for what options may touch. -/
structure SameCode (l l' : LoweredRoutine) : Prop where
  definition : l.definition.essence = l'.definition.essence
  declarations : ∀ name, name ≠ Intrinsic.tableFailure.name →
    l.declarations.get? name = l'.declarations.get? name

/-- The same progress, in which the report of a failure is not declared. -/
structure Abreast (p q : Progress) : Prop where
  nextTemp : p.nextTemp = q.nextTemp
  declarations : p.declarations = q.declarations
  free : p.declarations.get? Intrinsic.tableFailure.name = none

variable {o o' : Options} {order : ByteOrder}

-- ================================================================= blocks

theorem agree_block (sig : Signature) (map : BlockMap RoutineBlock) {b : RoutineBlock}
    (hb : Neutral b) :
    Agree Abreast SameBlock Abreast (block ⟨o, order⟩ sig map b) (block ⟨o', order⟩ sig map b) := by
  intro p q hpq
  have hbody : Agree Like SameBlock Like (blockBody ⟨⟨o, order⟩, b.label, sig.args⟩ sig map b)
      (blockBody ⟨⟨o', order⟩, b.label, sig.args⟩ sig map b) :=
    @agree_blockBody ⟨⟨o, order⟩, b.label, sig.args⟩ o o' sig map b hb rfl
  have hstart : Like (blockStart b p) (blockStart b q) :=
    ⟨hpq.nextTemp, hpq.declarations, rfl, rfl, hpq.free⟩
  have hp := run_block ⟨o, order⟩ sig map b p
  have hq := run_block ⟨o', order⟩ sig map b q
  rcases hbody.run hstart with ⟨l, l', s, t, hs, ht, hl, hst⟩ | ⟨e, s, t, hs, ht⟩
  · rw [hs] at hp
    rw [ht] at hq
    exact .inl ⟨l, l', _, _, hp, hq, hl, hst.nextTemp, hst.declarations, hst.free⟩
  · rw [hs] at hp
    rw [ht] at hq
    exact .inr ⟨e, _, _, hp, hq⟩

-- ========================================================== phi variables

/-- What the blocks under a label hand out, from blocks that hand out the same. -/
theorem exits_insertAll {ls ls' : List LoweredBlock} (h : List.Forall₂ SameBlock ls ls')
    {d d' : Dict Label LoweredBlock}
    (hd : ∀ k, (d.get? k).map (·.exits) = (d'.get? k).map (·.exits)) (k : Label) :
    ((d.insertAll (ls.map fun b => (b.label, b))).get? k).map (·.exits)
      = ((d'.insertAll (ls'.map fun b => (b.label, b))).get? k).map (·.exits) := by
  induction h generalizing d d' with
  | nil => exact hd k
  | @cons l l' ls ls' hl hls ih =>
      refine ih fun k => ?_
      simp only [Dict.get?_insert, hl.label]
      by_cases hk : l'.label = k
      · rw [if_pos hk, if_pos hk]
        exact congrArg some hl.exits
      · rw [if_neg hk, if_neg hk]
        exact hd k

/-- The choice of phi variables looks at nothing but what the blocks hand out. -/
theorem phis_eq {map : BlockMap RoutineBlock} {done done' : Dict Label LoweredBlock}
    (h : ∀ k, (done.get? k).map (·.exits) = (done'.get? k).map (·.exits)) (b : RoutineBlock) :
    phis map done b = phis map done' b := by
  have hoperand : phiOperand done = phiOperand done' := by
    funext p pred
    have hpred := h pred
    unfold phiOperand
    cases hd : done.get? pred with
    | none =>
        cases hd' : done'.get? pred with
        | none => rfl
        | some l' =>
            rw [hd, hd'] at hpred
            contradiction
    | some l =>
        cases hd' : done'.get? pred with
        | none =>
            rw [hd, hd'] at hpred
            contradiction
        | some l' =>
            rw [hd, hd'] at hpred
            have hexits : l.exits = l'.exits := Option.some.inj hpred
            simp only [Option.bind_eq_bind, Option.bind_some, hexits]
  rw [phis, phis, hoperand]

-- =============================================================== routines

/-- Blocks that are the same but for what options may touch become such code. -/
theorem essence_codeBlocks {ls ls' : List LoweredBlock} (h : List.Forall₂ SameBlock ls ls')
    (cs : List (List Phi)) :
    (codeBlocks ls cs).map Llvm.Block.essence = (codeBlocks ls' cs).map Llvm.Block.essence := by
  induction h generalizing cs with
  | nil => rfl
  | @cons l l' ls ls' hl hls ih =>
      cases cs with
      | nil => rfl
      | cons c cs =>
          refine congrArg₂ List.cons ?_ (ih cs)
          simp only [Llvm.Block.essence, hl.label, hl.instrs, hl.terminator]

/-- The end of a routine's lowering: the declarations are the same but for the
report of a failure, which is made on either side or not. -/
structure Ended (p q : Progress) : Prop where
  declarations : ∀ name, name ≠ Intrinsic.tableFailure.name →
    p.declarations.get? name = q.declarations.get? name

/-- The report of a failure can be declared as long as its name is free, and no
other declaration changes by that. -/
theorem succeeds_reportFailure (wanted : Bool) {p : Progress}
    (hp : p.declarations.get? Intrinsic.tableFailure.name = none) (d : LoweredDefinition) :
    ∃ p', Succeeds (reportFailure wanted d) p d p' ∧ Ended p' p := by
  cases wanted with
  | false => exact ⟨p, rfl, ⟨fun _ _ => rfl⟩⟩
  | true =>
      have hdeclare : (p.declarations.declare Intrinsic.tableFailure).run p.log
          = (.ok (p.declarations.insert Intrinsic.tableFailure.name Intrinsic.tableFailure),
            p.log.push (.declaring Intrinsic.tableFailure.name)) := by
        rw [Declarations.declare, hp]
        rfl
      refine ⟨⟨p.nextTemp, p.declarations.insert Intrinsic.tableFailure.name Intrinsic.tableFailure,
        p.log.push (.declaring Intrinsic.tableFailure.name)⟩, ?_, ⟨fun name hname => ?_⟩⟩
      · rw [Succeeds, run_reportFailure_wanted, hdeclare]
      · exact Dict.get?_insert_of_ne (Ne.symm hname)

theorem agree_routineBody {r : Routine} {map : BlockMap RoutineBlock} (hr : r.WellFormed)
    (hmap : r.blockMap = .ok map) (hneutral : ∀ b ∈ r.blocks, Neutral b) :
    Agree Abreast (fun d d' => Llvm.Definition.essence d = d'.essence) Ended
      (routineBody ⟨o, order⟩ r map) (routineBody ⟨o', order⟩ r map) := by
  have horder : Agree Abreast (fun bs bs' => bs = bs' ∧ ∀ b ∈ bs, Neutral b) Abreast
      (ofCheck (lowerOrder map r.entry)) (ofCheck (lowerOrder map r.entry)) := by
    refine agree_ofExcept_of fun bs hbs => ⟨rfl, fun b hb => ?_⟩
    obtain ⟨-, hall, -⟩ := of_lowerOrder hr hmap (ok_of_mapError hbs)
    exact hneutral b ((hall b).1 hb)
  refine horder.bindRel fun bs bs' hbs => ?_
  obtain ⟨rfl, hbs⟩ := hbs
  refine (agree_mapM fun b hb => agree_block r.signature map (hbs b hb)).bindRel
    fun ls ls' hls => ?_
  have hphis : phis map (Dict.ofList (ls.map fun b => (b.label, b)))
      = phis map (Dict.ofList (ls'.map fun b => (b.label, b))) := by
    funext b
    exact phis_eq (exits_insertAll hls fun _ => rfl) b
  dsimp only
  rw [hphis]
  refine (agree_ofExcept _).bind fun chosen => ?_
  refine (agree_ofExcept _).bind fun init => ?_
  intro p q hpq
  obtain ⟨p', hp', hpp'⟩ := succeeds_reportFailure
    (bs.any endsInTable && !o.allowUndefined) hpq.free
    ⟨r.name, .ofResults r.signature, params r.signature, init ++ codeBlocks ls chosen
      ++ if bs.any endsInTable then [tableFailureBlock o] else []⟩
  obtain ⟨q', hq', hqq'⟩ := succeeds_reportFailure
    (bs.any endsInTable && !o'.allowUndefined) (hpq.declarations ▸ hpq.free)
    ⟨r.name, .ofResults r.signature, params r.signature, init ++ codeBlocks ls' chosen
      ++ if bs.any endsInTable then [tableFailureBlock o'] else []⟩
  refine .inl ⟨_, _, p', q', hp', hq', ?_, ⟨fun name hname => ?_⟩⟩
  · have hcode := essence_codeBlocks hls chosen
    have hfailure : (if bs.any endsInTable then [tableFailureBlock o] else []).map
          Llvm.Block.essence
        = (if bs.any endsInTable then [tableFailureBlock o'] else []).map Llvm.Block.essence := by
      cases bs.any endsInTable <;> rfl
    simp only [Llvm.Definition.essence, List.map_append, hcode, hfailure]
  · rw [hpp'.declarations name hname, hqq'.declarations name hname, hpq.declarations]

/-- What comes out of the lowering of a routine's blocks is its code. -/
theorem agree_finish {x y : ExceptT LoweringError (StateM Progress) LoweredDefinition}
    (h : Agree Abreast (fun d d' => Llvm.Definition.essence d = d'.essence) Ended x y) :
    Agree (fun _ _ : Log => True) SameCode (fun _ _ => True)
      (ExceptT.mk fun log =>
        let (result, p) := x.run ⟨0, ∅, log⟩
        (result.map (⟨·, p.declarations⟩), p.log))
      (ExceptT.mk fun log =>
        let (result, p) := y.run ⟨0, ∅, log⟩
        (result.map (⟨·, p.declarations⟩), p.log)) := by
  intro log log' _
  have hstart : Abreast ⟨0, ∅, log⟩ ⟨0, ∅, log'⟩ := ⟨rfl, rfl, rfl⟩
  simp only [Succeeds, ExceptT.run_mk, StateT.run]
  rcases h.run hstart with ⟨d, d', p, q, hp, hq, hd, hpq⟩ | ⟨e, p, q, hp, hq⟩
  · rw [hp, hq]
    exact .inl ⟨_, _, _, _, rfl, rfl, ⟨hd, hpq.declarations⟩, trivial⟩
  · rw [hp, hq]
    exact .inr ⟨e, _, _, rfl, rfl⟩

/-- The options of the code change only what they say. Under any two of them, a
routine is refused with the same error, or its code is the same but for comments,
the flags of counts of zeros and what is done about an index that a table does
not have. It is assumed that the instruction marks are in range, and that no
function of the routine is named like the one that reports such an index. -/
theorem routine_options (o o' : Options) (order : ByteOrder) (r : Routine)
    (hmarks : ∀ b ∈ r.blocks, ∀ offset name, .instruction offset name ∈ b.stmts →
      b.label + offset < Address.limit)
    (hnames : ∀ b ∈ r.blocks, ∀ f, .entry f ∈ b.reads → f.name ≠ Intrinsic.tableFailure.name) :
    Agree (fun _ _ : Log => True) SameCode (fun _ _ => True)
      (routine ⟨o, order⟩ r) (routine ⟨o', order⟩ r) := by
  have hneutral : ∀ b ∈ r.blocks, Neutral b := by
    refine fun b hb => ⟨fun v hv => ?_, hmarks b hb⟩
    cases v with
    | entry f => exact hnames b hb f hv
    | bits | bool | assigned | initial | phi | returned | arg => trivial
  -- What the checks of the routine say is known on either side.
  have hcheck : Agree (fun _ _ : Log => True) (fun _ _ => r.WellFormed) (fun _ _ : Log => True)
      (liftM (r.check : Except LoweringError Unit) : Logged LoweringError Unit)
      (liftM (r.check : Except LoweringError Unit) : Logged LoweringError Unit) :=
    agree_ofExcept_of fun _ h => Routine.wellFormed_of_check (ok_of_mapError h)
  have hmap : Agree (fun _ _ : Log => True) (fun m m' => m = m' ∧ r.blockMap = .ok m)
      (fun _ _ : Log => True)
      (liftM (r.blockMap : Except LoweringError _) : Logged LoweringError _)
      (liftM (r.blockMap : Except LoweringError _) : Logged LoweringError _) :=
    agree_ofExcept_of fun _ h => ⟨rfl, ok_of_mapError h⟩
  have hwrite : ∀ rec : LogRecord, Agree (fun _ _ : Log => True) Eq (fun _ _ : Log => True)
      (Logged.write rec : Logged LoweringError Unit) (Logged.write rec) :=
    fun rec => agree_modify fun _ _ _ => trivial
  refine (hwrite _).bind fun _ => ?_
  refine hcheck.bindRel fun _ _ hr => ?_
  refine hmap.bindRel fun map map' hmap => ?_
  obtain ⟨rfl, hmap⟩ := hmap
  refine (hwrite _).bind fun _ => ?_
  exact agree_finish (agree_routineBody hr hmap hneutral)

/-- The position of the first bit that is set in an argument. -/
def firstSet : Assignment Value :=
  ⟨0, .app (.unary .scanForward 8 (.arg 0 (.bits 8))), .bits 8⟩

/-- Go on at the target that the position says. -/
def scanned : Routine where
  name := "scanned"
  addr := 0
  signature := ⟨[.bits 8], [], false⟩
  entry := 0
  blocks :=
    [⟨0, 1, [], [.instruction 0 "bsf", .assign firstSet], .table (.assigned firstSet) [16], ∅⟩,
      ⟨16, 1, [], [], .ret [], ∅⟩]

theorem blockMap_scanned : scanned.blockMap
    = .ok ⟨scanned.blocks, Dict.ofList [(0, []), (16, [0])]⟩ :=
  BlockMap.build_of_pairwise (by decide) rfl rfl rfl

/-- With and without comments and undefined behaviour, the code has the same
instructions but for a comment and the report of a failure. -/
theorem routine_options_scanned :
    ∃ l l' log log', Succeeds (routine ⟨⟨false, true⟩, .little⟩ scanned) #[] l log
      ∧ Succeeds (routine ⟨⟨true, false⟩, .little⟩ scanned) #[] l' log' ∧ SameCode l l'
      ∧ l.definition.blocks.map (·.instrs.length) = [2, 0, 1]
      ∧ l'.definition.blocks.map (·.instrs.length) = [1, 0, 0] := by
  have hmarks : ∀ b ∈ scanned.blocks, ∀ offset name, .instruction offset name ∈ b.stmts →
      b.label + offset < Address.limit := by
    intro b hb offset name hmark
    rcases List.mem_pair.1 hb with rfl | rfl
    · obtain ⟨rfl, -⟩ : offset = 0 ∧ name = "bsf" := by simpa using hmark
      decide
    · exact absurd hmark List.not_mem_nil
  have hnames : ∀ b ∈ scanned.blocks, ∀ f, .entry f ∈ b.reads →
      f.name ≠ Intrinsic.tableFailure.name := by
    intro b hb f hf
    have hreads : b.reads = [.arg 0 (.bits 8), .assigned firstSet] ∨ b.reads = [] := by
      rcases List.mem_pair.1 hb with rfl | rfl
      · exact .inl rfl
      · exact .inr rfl
    rcases hreads with hreads | hreads <;> simp [hreads] at hf
  have hl : ((routine ⟨⟨false, true⟩, .little⟩ scanned).run.run #[]).1.map
      (fun l => l.definition.blocks.map (·.instrs.length)) = .ok [2, 0, 1] := by
    unfold routine
    rw [blockMap_scanned]
    rfl
  have hl' : ((routine ⟨⟨true, false⟩, .little⟩ scanned).run.run #[]).1.map
      (fun l => l.definition.blocks.map (·.instrs.length)) = .ok [1, 0, 0] := by
    unfold routine
    rw [blockMap_scanned]
    rfl
  rcases routine_options ⟨false, true⟩ ⟨true, false⟩ .little scanned hmarks hnames #[] #[] trivial
    with ⟨l, l', log, log', hrun, hrun', hsame, -⟩ | ⟨e, log, log', hrun, -⟩
  · rw [hrun] at hl
    rw [hrun'] at hl'
    exact ⟨l, l', log, log', hrun, hrun', hsame, Except.ok.inj hl, Except.ok.inj hl'⟩
  · rw [hrun] at hl
    contradiction

end Lowering

end LiftedCode
